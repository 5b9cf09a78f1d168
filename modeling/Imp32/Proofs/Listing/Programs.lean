import Imp32.Proofs.Listing.Arm64
import Imp32.Proofs.Listing.X86

/-!
# Labels of programs

On both targets, whatever they are called by, the text of a program that was read from a text sets
every label once, and what it branches to.
-/

namespace Imp32

open Assembly

/-- In the text of a program, all labels are different, each one that is branched to is set once, and
behind the last return there are the handlers of the failures that are branched to. -/
theorem Program.branches_land {source : String} {limit : Int} {p : Program}
    (h : Program.parse source limit = .ok p) {entry : String} (hentry : IsEntryName entry) :
    ∀ name ∈ ["arm64", "aarch64", "x86_64", "amd64"], ∃ target text,
      Target.ofName? name = some target ∧ p.compile target entry = .ok text ∧
        target.WellLabelled (Text.linesOf text.toList) := by
  have harm : ∃ text, p.compile .arm64 entry = .ok text ∧
      Target.arm64.WellLabelled (Text.linesOf text.toList) :=
    Arm64.legible.compile_wellLabelled Arm64.sound hentry (parse_proper h)
  have hx86 : ∃ text, p.compile .x86 entry = .ok text ∧
      Target.x86.WellLabelled (Text.linesOf text.toList) :=
    X86.legible.compile_wellLabelled X86.sound hentry (parse_proper h)
  intro name hname
  have hcases : Target.ofName? name = some .arm64 ∨ Target.ofName? name = some .x86 := by
    simp only [List.mem_cons, List.not_mem_nil, or_false] at hname
    rcases hname with rfl | rfl | rfl | rfl
    · exact .inl rfl
    · exact .inl rfl
    · exact .inr rfl
    · exact .inr rfl
  rcases hcases with htarget | htarget
  · obtain ⟨text, hcompile, hwell⟩ := harm
    exact ⟨.arm64, text, htarget, hcompile, hwell⟩
  · obtain ⟨text, hcompile, hwell⟩ := hx86
    exact ⟨.x86, text, htarget, hcompile, hwell⟩

/-- A loop, a conditional statement, a power and a quotient, in a function whose name has a digit. -/
theorem Program.branches_land_nested : ∃ p : Program,
    Program.parse "while (x < 3) { if (x == 1) { x = x ^ 2; } x = 7 / x; }" 100 = .ok p ∧
    IsEntryName "main_1" ∧
    ∀ name ∈ ["arm64", "aarch64", "x86_64", "amd64"], ∃ target text,
      Target.ofName? name = some target ∧ p.compile target "main_1" = .ok text ∧
        target.WellLabelled (Text.linesOf text.toList) := by
  have hparse : (Program.parse "while (x < 3) { if (x == 1) { x = x ^ 2; } x = 7 / x; }"
      100).toOption.isSome = true := by decide +kernel
  have hentry : IsEntryName "main_1" := by decide +kernel
  cases h : Program.parse "while (x < 3) { if (x == 1) { x = x ^ 2; } x = 7 / x; }" 100 with
  | error e =>
    rw [h] at hparse
    cases hparse
  | ok p => exact ⟨p, rfl, hentry, Program.branches_land h hentry⟩

end Imp32
