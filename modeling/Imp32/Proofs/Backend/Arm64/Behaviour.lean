import Imp32.Proofs.Backend.Arm64.Program

/-!
# What programs do on AArch64

Run from its entry, the code of a program returns its value, breaks with the code of its failure or
runs forever, as the program does (`Behaves`). That holds on a machine that takes any operands; on
one that takes encodable ones it holds for programs with at most 4096 variables, and for no others.
-/

namespace Imp32.Assembly.Arm64

section Statement

variable (exec : Instr → State → Effect State Stop) (lines : List (Line Instr)) (p : Program)

/-- Run from a line, the lines do what the program does. -/
structure BehavesFrom (start : Point State) : Prop where
  returns_iff : (∃ v, p.Returns v) ↔ ∃ final, Halts exec lines start (.returned final)
  /-- The result is in `w0`, and the registers of the caller are as they were. -/
  returned : ∀ v final, p.Returns v → Halts exec lines start (.returned final) →
    low (final.reg .r0) = v % 0x100000000 ∧ Restored start.state final
  division_iff : (∃ span, p.FailsWith (.divisionByZero span)) ↔ Halts exec lines start (.broken 1)
  unbound_iff : (∃ name span, p.FailsWith (.unboundVariable name span)) ↔
    Halts exec lines start (.broken 2)
  exponent_iff : (∃ n span, p.FailsWith (.negativeExponent n span)) ↔
    Halts exec lines start (.broken 3)
  diverges_iff : p.Diverges ↔ Forever (stepLine exec lines) start
  /-- There is no other case. -/
  total : (∃ v, p.Returns v) ∨ (∃ span, p.FailsWith (.divisionByZero span)) ∨
    (∃ name span, p.FailsWith (.unboundVariable name span)) ∨
    (∃ n span, p.FailsWith (.negativeExponent n span)) ∨ p.Diverges

/-- The lines have an entry, and run from there they do what the program does, whatever the
registers and the memory hold. -/
def Behaves : Prop :=
  ∃ entry, resolve lines (.named defaultEntry) = some entry ∧
    ∀ s, BehavesFrom exec lines p ⟨entry, s⟩

end Statement

section Realized

variable {exec : Instr → State → Effect State Stop} {lines : List (Line Instr)} {p : Program}
  {start : Point State}

/-- What behaves is never stuck. -/
theorem BehavesFrom.not_stuck (h : BehavesFrom exec lines p start) :
    ¬Ends (stepLine exec lines) start .stuck := by
  intro hstuck
  have hnot : ∀ r, ¬Halts exec lines start r := by
    rintro r ⟨line, hends⟩
    cases hends.unique hstuck
  rcases h.total with hv | he | he | he | hdiverges
  · obtain ⟨final, hfinal⟩ := h.returns_iff.1 hv
    exact hnot _ hfinal
  · exact hnot _ (h.division_iff.1 he)
  · exact hnot _ (h.unbound_iff.1 he)
  · exact hnot _ (h.exponent_iff.1 he)
  · exact hstuck.not_forever (h.diverges_iff.1 hdiverges)

variable (h : Realizes exec lines (Stops start.state) p start)

include h

theorem halts_of_returns {v : Int} (hv : p.Returns v) : ∃ final,
    Halts exec lines start (.returned final) ∧ low (final.reg .r0) = v % 0x100000000 ∧
      Restored start.state final := by
  obtain ⟨pos, line, o, hends, hstops⟩ := h.returns v hv
  cases o with
  | broken code => cases hstops
  | returned final =>
    obtain ⟨-, hr0, hrestored⟩ := hstops
    refine ⟨final, ⟨line, hends⟩, ?_, hrestored⟩
    rw [hr0, low_low]
    rfl

theorem failsAs_iff_halts {kind : String} {code : Int} (hcode : trapCode? kind = some code) :
    p.FailsAs kind ↔ Halts exec lines start (.broken code) := by
  refine ⟨fun hfails => ?_, fun ⟨line, hends⟩ => ?_⟩
  · obtain ⟨code', k, line, o, hcode', -, hends, hstops⟩ := h.failsAs hfails
    cases hcode.symm.trans hcode'
    cases o with
    | returned final => cases hstops
    | broken code' =>
      cases hstops
      exact ⟨line, hends⟩
  · rcases h.origin hends with ⟨v, pos, -, hstops⟩ | ⟨kind', code', k, hfails, hcode', -, hstops⟩
    · cases hstops
    · cases hstops
      cases trapCode_injective hcode hcode'
      exact hfails

theorem behavesFrom_of_realizes : BehavesFrom exec lines p start where
  returns_iff := by
    refine ⟨fun ⟨v, hv⟩ => ?_, fun ⟨final, line, hends⟩ => ?_⟩
    · obtain ⟨final, hfinal, -⟩ := halts_of_returns h hv
      exact ⟨final, hfinal⟩
    · rcases h.origin hends with ⟨v, pos, hv, -⟩ | ⟨kind, code, k, -, -, -, hstops⟩
      · exact ⟨v, hv⟩
      · cases hstops
  returned v final hv hfinal := by
    obtain ⟨final', hfinal', hresult⟩ := halts_of_returns h hv
    cases hfinal'.unique hfinal
    exact hresult
  division_iff := Program.failsAs_div_zero.symm.trans (failsAs_iff_halts h rfl)
  unbound_iff := Program.failsAs_unbound.symm.trans (failsAs_iff_halts h rfl)
  exponent_iff := Program.failsAs_neg_exp.symm.trans (failsAs_iff_halts h rfl)
  diverges_iff := h.diverges_iff
  total := h.total

end Realized

section Assembled

variable {p : Program} {steps : List Step} (hassembled : Assembled .arm64 p steps)

include hassembled

theorem realizes {entry : Nat}
    (hentry : resolve (steps.flatMap expand) (.named defaultEntry) = some entry)
    (hsize : frameSize p.slots.length < 0x100000000) (start : State) :
    Realizes Instr.exec (steps.flatMap expand) (Stops start) p ⟨entry, start⟩ := by
  obtain ⟨t, hrun, hR⟩ := run_entering start p.slots.length hsize
  exact realizes_of_entering hassembled (expands hassembled.formed) rfl
    (fun step hstep => answered (hassembled.formed step hstep)) hentry hrun hR

/-- A machine that takes any operands does what the program does. -/
theorem behaves (hsize : frameSize p.slots.length < 0x100000000) :
    Behaves Instr.exec (steps.flatMap expand) p := by
  obtain ⟨entry, hentry, -⟩ := exists_entry hassembled (expands hassembled.formed) (entering p.slots.length) rfl
  exact ⟨entry, hentry, fun start => behavesFrom_of_realizes (realizes hassembled hentry hsize start)⟩

/-- With few slots, all operands have an encoding. -/
theorem behaves_of_encodable (hslots : p.slots.length ≤ 4096) :
    Behaves (execIf Instr.encodable Instr.exec) (steps.flatMap expand) p := by
  have hfits : ∀ i, .instr i ∈ steps.flatMap expand → i.encodable = true :=
    forall_instr_of_assembled hassembled (encodable_opening hslots) fun _ => encodable_expand hslots
  obtain ⟨entry, hentry, -⟩ := exists_entry hassembled (expands hassembled.formed) (entering p.slots.length) rfl
  have hsize : frameSize p.slots.length < 0x100000000 := by
    unfold frameSize
    omega
  refine ⟨entry, hentry, fun start => behavesFrom_of_realizes ?_⟩
  exact (realizes hassembled hentry hsize start).execIf hfits

/-- With too many slots, the machine is stuck in the prologue already. -/
theorem not_behaves_of_slots (hslots : 4096 < p.slots.length) :
    ¬Behaves (execIf Instr.encodable Instr.exec) (steps.flatMap expand) p := by
  rintro ⟨entry, hentry, hbehaves⟩
  obtain ⟨entry', hentry', hplaced, -⟩ :=
    exists_entry hassembled (expands hassembled.formed) (entering p.slots.length) rfl
  cases hentry.symm.trans hentry'
  let start : State := ⟨fun _ => 0, fun _ => none, false, false, false⟩
  have hlabel : stepLine (execIf Instr.encodable Instr.exec) (steps.flatMap expand)
      ⟨entry, start⟩ = .go ⟨entry + 1, start⟩ := step_label hplaced.head
  have hstuck := ends_stuck_of_entering hslots hplaced.tail start
  exact (hbehaves start).not_stuck ((Advances.of_step hlabel).reaches.ends hstuck)

end Assembled

end Imp32.Assembly.Arm64

namespace Imp32

open Assembly

/-- The assembly text of a program that was read from a text is a listing that does on AArch64 what
the program does, as long as the frame has less than 2³² bytes. All operands of its instructions
have an encoding, so that a machine can run it, just if there are at most 4096 variables. -/
theorem Program.arm64_behaves {source : String} {limit : Int} {p : Program}
    (h : Program.parse source limit = .ok p) : ∃ lines : List (Line Arm64.Instr),
      p.compile .arm64 defaultEntry =
        .ok ("\n".intercalate (lines.map (Line.text Arm64.Instr.text)) ++ "\n") ∧
      (Arm64.Behaves (execIf Arm64.Instr.encodable Arm64.Instr.exec) lines p ↔
        p.slots.length ≤ 4096) ∧
      (frameSize p.slots.length < 0x100000000 → Arm64.Behaves Arm64.Instr.exec lines p) := by
  obtain ⟨e, he, hassembled⟩ := p.exists_assembled .arm64 h
  refine ⟨e.steps.flatMap Arm64.expand, ?_, ⟨fun hbehaves => ?_, ?_⟩, ?_⟩
  · rw [compile_eq he, Emitter.output, Emitter.lines, List.map_flatMap]
    rfl
  · exact Nat.not_lt.1 fun hslots => Arm64.not_behaves_of_slots hassembled hslots hbehaves
  · exact Arm64.behaves_of_encodable hassembled
  · exact Arm64.behaves hassembled

/-- One variable is counted down to zero, and then it divides. -/
theorem Program.arm64_behaves_countdown : ∃ (p : Program) (lines : List (Line Arm64.Instr)),
    Program.parse "n = 3; while (n) \x7b n = n - 1; \x7d 7 / n;" 100 = .ok p ∧
      p.compile .arm64 defaultEntry =
        .ok ("\n".intercalate (lines.map (Line.text Arm64.Instr.text)) ++ "\n") ∧
      Arm64.Behaves (execIf Arm64.Instr.encodable Arm64.Instr.exec) lines p ∧
      Arm64.Behaves Arm64.Instr.exec lines p := by
  have hparse : ((Program.parse "n = 3; while (n) \x7b n = n - 1; \x7d 7 / n;" 100).map
      (·.slots.length)).toOption = some 1 := by decide +kernel
  cases h : Program.parse "n = 3; while (n) \x7b n = n - 1; \x7d 7 / n;" 100 with
  | error e =>
    rw [h] at hparse
    cases hparse
  | ok p =>
    rw [h] at hparse
    have hslots : p.slots.length = 1 := Option.some.inj hparse
    obtain ⟨lines, htext, hiff, hany⟩ := Program.arm64_behaves h
    exact ⟨p, lines, rfl, htext, hiff.2 (by omega), hany (by rw [hslots]; decide)⟩

end Imp32
