import Imp32.Proofs.Backend.X86.Program

/-!
# What programs do on x86-64

Run from its entry, the code of a program returns its value, aborts at the handler of its failure or
runs forever, as the program does, and no division faults (`Behaves`). That holds for every program
on a machine that takes any operands; as long as the frame has less than 2³¹ bytes, all operands
have an encoding.
-/

namespace Imp32.Assembly.X86

section Statement

variable (exec : Instr → State → Effect State Stop) (lines : List (Line Instr)) (p : Program)

/-- The machine aborts right behind the label of a handler. -/
def Aborts (start : Point State) (kind : String) : Prop :=
  ∃ k, lines[k]? = some (.label (.trap kind)) ∧
    Ends (stepLine exec lines) start (.stopped (k + 1) .aborted)

/-- Run from a line, the lines do what the program does. -/
structure BehavesFrom (start : Point State) : Prop where
  returns_iff : (∃ v, p.Returns v) ↔ ∃ final, Halts exec lines start (.returned final)
  /-- The result is in `%eax`, and the registers of the caller are as they were. -/
  returned : ∀ v final, p.Returns v → Halts exec lines start (.returned final) →
    low (final.reg .a) = v % 0x100000000 ∧ Restored start.state final
  division_iff : (∃ span, p.FailsWith (.divisionByZero span)) ↔
    Aborts exec lines start "div_zero"
  unbound_iff : (∃ name span, p.FailsWith (.unboundVariable name span)) ↔
    Aborts exec lines start "unbound"
  exponent_iff : (∃ n span, p.FailsWith (.negativeExponent n span)) ↔
    Aborts exec lines start "neg_exp"
  no_fault : ¬Halts exec lines start .divideFault
  diverges_iff : p.Diverges ↔ Forever (stepLine exec lines) start
  /-- There is no other case. -/
  total : (∃ v, p.Returns v) ∨ (∃ span, p.FailsWith (.divisionByZero span)) ∨
    (∃ name span, p.FailsWith (.unboundVariable name span)) ∨
    (∃ n span, p.FailsWith (.negativeExponent n span)) ∨ p.Diverges

/-- The lines have an entry, and run from there they do what the program does, whatever the
registers, the flags and the memory hold. -/
def Behaves : Prop :=
  ∃ entry, resolve lines (.named defaultEntry) = some entry ∧
    ∀ s, BehavesFrom exec lines p ⟨entry, s⟩

end Statement

section Realized

variable {exec : Instr → State → Effect State Stop} {lines : List (Line Instr)} {p : Program}
  {start : Point State} (h : Realizes exec lines (Stops start.state) p start)

include h

theorem halts_of_returns {v : Int} (hv : p.Returns v) : ∃ final,
    Halts exec lines start (.returned final) ∧ low (final.reg .a) = v % 0x100000000 ∧
      Restored start.state final := by
  obtain ⟨pos, line, o, hends, hstops⟩ := h.returns v hv
  cases o with
  | returned final =>
    obtain ⟨-, hra, hrestored⟩ := hstops
    refine ⟨final, ⟨line, hends⟩, ?_, hrestored⟩
    rw [hra, low_low]
    rfl
  | _ => cases hstops

theorem failsAs_iff_aborts {kind : String} : p.FailsAs kind ↔ Aborts exec lines start kind := by
  refine ⟨fun hfails => ?_, fun ⟨k, hlabel, hends⟩ => ?_⟩
  · obtain ⟨code, k, line, o, -, hlabel, hends, hstops⟩ := h.failsAs hfails
    cases o with
    | aborted =>
      cases hstops
      exact ⟨k, hlabel, hends⟩
    | _ => cases hstops
  · rcases h.origin hends with ⟨v, pos, -, hstops⟩ | ⟨kind', code, k', hfails, -, hlabel', hstops⟩
    · cases hstops
    · cases hstops
      cases hlabel.symm.trans hlabel'
      exact hfails

theorem behavesFrom_of_realizes : BehavesFrom exec lines p start where
  returns_iff := by
    refine ⟨fun ⟨v, hv⟩ => ?_, fun ⟨final, line, hends⟩ => ?_⟩
    · obtain ⟨final, hfinal, -⟩ := halts_of_returns h hv
      exact ⟨final, hfinal⟩
    · rcases h.origin hends with ⟨v, pos, hv, -⟩ | ⟨kind, code, k, -, -, -, hstops⟩
      · exact ⟨v, hv⟩
      · cases hstops
  returned v final hv hfinal := by
    obtain ⟨final', hfinal', hresult⟩ := halts_of_returns h hv
    cases hfinal'.unique hfinal
    exact hresult
  division_iff := Program.failsAs_div_zero.symm.trans (failsAs_iff_aborts h)
  unbound_iff := Program.failsAs_unbound.symm.trans (failsAs_iff_aborts h)
  exponent_iff := Program.failsAs_neg_exp.symm.trans (failsAs_iff_aborts h)
  no_fault := by
    rintro ⟨line, hends⟩
    rcases h.origin hends with ⟨v, pos, -, hstops⟩ | ⟨kind, code, k, -, -, -, hstops⟩
    · cases hstops
    · cases hstops
  diverges_iff := h.diverges_iff
  total := h.total

end Realized

section Assembled

variable {p : Program} {steps : List Step} (hassembled : Assembled .x86 p steps)

include hassembled

theorem realizes {entry : Nat}
    (hentry : resolve (steps.flatMap expand) (.named defaultEntry) = some entry) (start : State) :
    Realizes Instr.exec (steps.flatMap expand) (Stops start) p ⟨entry, start⟩ := by
  obtain ⟨t, hrun, hR⟩ := run_entering start p.slots.length
  exact realizes_of_entering hassembled (expands hassembled.formed) rfl
    (fun step hstep => answered (hassembled.formed step hstep)) hentry hrun hR

/-- A machine that takes any operands does what the program does. -/
theorem behaves : Behaves Instr.exec (steps.flatMap expand) p := by
  obtain ⟨entry, hentry, -⟩ := exists_entry hassembled (expands hassembled.formed) (entering p.slots.length) rfl
  exact ⟨entry, hentry, fun start => behavesFrom_of_realizes (realizes hassembled hentry start)⟩

/-- With few slots, all operands have an encoding. -/
theorem behaves_of_encodable (hsize : frameSize p.slots.length < 0x80000000) :
    Behaves (execIf Instr.encodable Instr.exec) (steps.flatMap expand) p := by
  have hfits : ∀ i, .instr i ∈ steps.flatMap expand → i.encodable = true :=
    forall_instr_of_assembled hassembled (encodable_opening hsize) fun _ => encodable_expand hsize
  obtain ⟨entry, hentry, -⟩ := exists_entry hassembled (expands hassembled.formed) (entering p.slots.length) rfl
  refine ⟨entry, hentry, fun start => behavesFrom_of_realizes ?_⟩
  exact (realizes hassembled hentry start).execIf hfits

end Assembled

end Imp32.Assembly.X86

namespace Imp32

open Assembly

/-- The assembly text of a program that was read from a text is a listing that does on x86-64 what
the program does. All operands of its instructions have an encoding as long as the frame has less
than 2³¹ bytes. -/
theorem Program.x86_behaves {source : String} {limit : Int} {p : Program}
    (h : Program.parse source limit = .ok p) : ∃ lines : List (Line X86.Instr),
      p.compile .x86 defaultEntry =
        .ok ("\n".intercalate (lines.map (Line.text X86.Instr.text)) ++ "\n") ∧
      X86.Behaves X86.Instr.exec lines p ∧
      (frameSize p.slots.length < 0x80000000 →
        X86.Behaves (execIf X86.Instr.encodable X86.Instr.exec) lines p) := by
  obtain ⟨e, he, hassembled⟩ := p.exists_assembled .x86 h
  refine ⟨e.steps.flatMap X86.expand, ?_, X86.behaves hassembled, ?_⟩
  · rw [compile_eq he, Emitter.output, Emitter.lines, List.map_flatMap]
    rfl
  · exact X86.behaves_of_encodable hassembled

/-- A division of the least value by -1 in a loop that ends. -/
theorem Program.x86_behaves_leastValue : ∃ (p : Program) (lines : List (Line X86.Instr)),
    Program.parse "n = -2147483647 - 1; for (k = 2; k; k = k - 1) \x7b n = n / -1; \x7d n;" 100 =
        .ok p ∧
      p.compile .x86 defaultEntry =
        .ok ("\n".intercalate (lines.map (Line.text X86.Instr.text)) ++ "\n") ∧
      X86.Behaves X86.Instr.exec lines p ∧
      X86.Behaves (execIf X86.Instr.encodable X86.Instr.exec) lines p := by
  have hparse : ((Program.parse
      "n = -2147483647 - 1; for (k = 2; k; k = k - 1) \x7b n = n / -1; \x7d n;" 100).map
        (·.slots.length)).toOption = some 2 := by decide +kernel
  cases h : Program.parse
      "n = -2147483647 - 1; for (k = 2; k; k = k - 1) \x7b n = n / -1; \x7d n;" 100 with
  | error e =>
    rw [h] at hparse
    cases hparse
  | ok p =>
    rw [h] at hparse
    have hslots : p.slots.length = 2 := Option.some.inj hparse
    obtain ⟨lines, htext, hany, hencodable⟩ := Program.x86_behaves h
    exact ⟨p, lines, rfl, htext, hany, hencodable (by rw [hslots]; decide)⟩

end Imp32
