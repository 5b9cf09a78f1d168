import Imp32.Proofs.Stack.Arm64
import Imp32.Proofs.Stack.X86

/-!
# Stack discipline of programs

On both targets, the code of a program that was read from a text keeps the discipline of the stack,
however many variables it has and whether it ends or not.
-/

namespace Imp32

open Assembly

/-- On both targets, the number of operands is static in the code of a program, and wherever a run is
between the prologue and the epilogue, the stack is aligned and below the frame, operands are written
to cells of their own and read as they were written, and slots hold words or are unassigned. -/
theorem Program.keeps_stack_discipline {source : String} {limit : Int} {p : Program}
    (h : Program.parse source limit = .ok p) :
    KeepsStack Arm64.platform p ∧ KeepsStack X86.platform p :=
  ⟨Arm64.sound.keepsStack h, X86.sound.keepsStack h⟩

/-- An inner loop runs on top of the value that the outer one keeps. -/
theorem Program.keeps_stack_discipline_nested : ∃ p : Program,
    Program.parse "while (n) { for (i = n; i; i = i - 1) { if (i) { 7 / i; } } }" 100 =
      .ok p ∧ KeepsStack Arm64.platform p ∧ KeepsStack X86.platform p ∧
    (∃ s, Arm64.platform.Aligned s) ∧ ∃ s, X86.platform.Aligned s := by
  have hparse : (Program.parse
      "while (n) { for (i = n; i; i = i - 1) { if (i) { 7 / i; } } }"
      100).toOption.isSome = true := by decide +kernel
  cases h : Program.parse
      "while (n) { for (i = n; i; i = i - 1) { if (i) { 7 / i; } } }" 100 with
  | error e =>
    rw [h] at hparse
    cases hparse
  | ok p =>
    obtain ⟨harm, hx86⟩ := Program.keeps_stack_discipline h
    exact ⟨p, rfl, harm, hx86, ⟨⟨fun _ => 0, fun _ => none, false, false, false⟩, rfl⟩,
      ⟨⟨fun _ => 8, fun _ => none, none, none, none⟩, rfl⟩⟩

end Imp32
