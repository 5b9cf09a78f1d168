import Imp32.Editor
import Imp32.Proofs.Munch
import Imp32.Proofs.Totality

/-!
# Analysing a text

A text without a run of digits that is too long is always analysed (`Document.exists_analysis`): it
is read, or the error is a fault that is reported. What is known of it then is a program with what
the checker finds, or the one report.
-/

namespace Imp32

section Reading

variable {source : String} {limit : Int}

/-- Without a run of digits that is too long, the scanner fails with a fault only. -/
theorem tokens_fault_isSome (h : FewDigits source.toList) {e : LexError}
    (he : tokens source = .error e) : e.fault?.isSome := by
  cases hfault : e.fault? with
  | some fault => rfl
  | none =>
    obtain ⟨ts, s, run, rest, hscans, hrun, ⟨hlong, -⟩, -⟩ := Scanner.exists_run_of_error he hfault
    have hprefix : run <+: s.rest.dropWhile Text.isBlank := ⟨rest, hrun.eq_append.symm⟩
    have hinside : run <:+: source.toList :=
      hprefix.isInfix.trans ((List.dropWhile_suffix _).trans hscans.suffix).isInfix
    exact absurd hlong (Nat.not_lt.2 (h run hinside hrun.digits))

/-- A text that is no program fails where it is cut into tokens or where they are read. -/
theorem Program.parse_error_cases {e : Failure} (h : Program.parse source limit = .error e) :
    (∃ e', tokens source = .error e' ∧ e = .lex e') ∨
      ∃ ts e', tokens source = .ok ts ∧ Program.ofTokens ts limit = .error e' ∧ e = .parse e' := by
  unfold Program.parse readText at h
  cases htokens : tokens source with
  | error e' =>
    rw [htokens] at h
    cases h
    exact .inl ⟨e', rfl, rfl⟩
  | ok ts =>
    rw [htokens] at h
    change (Program.ofTokens ts limit).mapError Failure.parse = _ at h
    cases hread : Program.ofTokens ts limit with
    | error e' =>
      rw [hread] at h
      cases h
      exact .inr ⟨ts, e', rfl, hread, rfl⟩
    | ok p =>
      rw [hread] at h
      cases h

theorem Program.parse_fault_isSome (h : FewDigits source.toList) {e : Failure}
    (he : Program.parse source limit = .error e) : e.fault?.isSome := by
  obtain ⟨e', htokens, rfl⟩ | ⟨ts, e', -, hread, rfl⟩ := Program.parse_error_cases he
  · exact tokens_fault_isSome h htokens
  · exact ofTokens_error_isSome hread

end Reading

namespace Document

variable {d : Document} {limit : Int} {a : Analysis}

/-- What is known of a text that is no program. -/
theorem analyze_of_error {e : Failure} {fault : Fault} (h : Program.parse d.text limit = .error e)
    (hfault : e.fault? = some fault) :
    d.analyze limit = .ok ⟨d, none, [], [fault.diagnostic.report d]⟩ := by
  unfold analyze
  rw [h]
  simp only [hfault]

/-- What is known of a text that is a program. -/
theorem analyze_of_ok {p : Program} {f : Findings} (h : Program.parse d.text limit = .ok p)
    (hcheck : p.check = .ok f) :
    d.analyze limit = .ok ⟨d, some p, f.targets, f.diagnostics.map (·.report d)⟩ := by
  unfold analyze
  rw [h]
  simp only [hcheck]

/-- A text without a run of digits that is too long is analysed. -/
theorem exists_analysis (h : FewDigits d.text.toList) : ∃ a, d.analyze limit = .ok a := by
  cases hread : Program.parse d.text limit with
  | error e =>
    obtain ⟨fault, hfault⟩ := Option.isSome_iff_exists.1 (Program.parse_fault_isSome h hread)
    exact ⟨_, analyze_of_error hread hfault⟩
  | ok p =>
    obtain ⟨f, hf⟩ := Program.check_ok (parse_proper hread)
    exact ⟨_, analyze_of_ok hread hf⟩

end Document

end Imp32
