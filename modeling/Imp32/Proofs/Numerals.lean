import Imp32.Proofs.Scanning
import Mathlib.Algebra.Group.Nat.Defs

/-!
# Numerals

A run of digits is decided by its value, however many zeros lead it, unless the number reader
refuses it: a run of more digits than it takes of which so few are significant that it is called
before the value is known to be too great (`numeral_eq`). At every run of digits that it reaches,
the scanner reads the value or reports an overflow, and a refused run is the only way in which a
text fails without a fault to show (`tokens_decidesLiterals`).
-/

namespace Imp32

/-! ## The value of digits -/

namespace Text

theorem decimalValue_eq (digits : List Char) : decimalValue digits = Nat.ofDigitChars 10 digits 0 := by
  have h : ∀ (cs : List Char) (n : Nat),
      (cs.map digitValue).foldl (fun n d => n * 10 + d) n = Nat.ofDigitChars 10 cs n := by
    intro cs
    induction cs with
    | nil => exact fun n => rfl
    | cons c cs ih =>
      intro n
      rw [List.map_cons, List.foldl_cons, ih, Nat.ofDigitChars_cons, Nat.mul_comm 10 n]
      rfl
  exact h digits 0

theorem decimalValue_cons (c : Char) (cs : List Char) :
    decimalValue (c :: cs) = 10 ^ cs.length * digitValue c + decimalValue cs := by
  rw [decimalValue_eq, decimalValue_eq, Nat.ofDigitChars_cons, Nat.mul_zero, Nat.zero_add,
    Nat.ofDigitChars_eq_ofDigitChars_zero]
  rfl

/-- Leading zeros do not change the value. -/
theorem decimalValue_dropWhile (digits : List Char) :
    decimalValue (digits.dropWhile (· = '0')) = decimalValue digits := by
  induction digits with
  | nil => rfl
  | cons c cs ih =>
    by_cases hc : c = '0'
    · subst hc
      rw [List.dropWhile_cons_of_pos (by decide), ih, decimalValue_cons]
      simp [digitValue]
    · rw [List.dropWhile_cons_of_neg (by simpa using hc)]

/-- A digit in front makes the value as great as its place, unless it is zero. -/
theorem le_decimalValue_cons {c : Char} (cs : List Char) (hdigit : c.isDigit = true)
    (hzero : c ≠ '0') : 10 ^ cs.length ≤ decimalValue (c :: cs) := by
  have hpos : 0 < digitValue c := by
    have hrange := Char.isDigit_iff_toNat.1 hdigit
    have hne : c.toNat ≠ '0'.toNat := fun h => hzero (Char.toNat_inj.1 h)
    unfold digitValue
    omega
  rw [decimalValue_cons]
  exact Nat.le_trans (Nat.le_mul_of_pos_right _ hpos) (Nat.le_add_right _ _)

end Text

namespace Scanner

/-- Digits behind the leading zeros that are too many make the value too great. -/
theorem maxValue_lt_decimalValue {digits : List Char} (hdigits : ∀ c ∈ digits, c.isDigit = true)
    (h : maxSignificant < (digits.dropWhile (· = '0')).length) :
    Word.maxValue < Text.decimalValue digits := by
  rw [← Text.decimalValue_dropWhile]
  cases hcs : digits.dropWhile (· = '0') with
  | nil => simp [hcs] at h
  | cons c cs =>
    rw [hcs, List.length_cons] at h
    have hmem : c ∈ digits := (List.dropWhile_sublist (l := digits) (· = '0')).mem (by simp [hcs])
    have hzero : c ≠ '0' := by
      have := List.head?_dropWhile_not (· = '0') digits
      rw [hcs] at this
      simpa using this
    calc Word.maxValue < 10 ^ maxSignificant := by decide
      _ ≤ 10 ^ cs.length := Nat.pow_le_pow_right (by decide) (Nat.le_of_lt_succ h)
      _ ≤ Text.decimalValue (c :: cs) := Text.le_decimalValue_cons cs (hdigits c hmem) hzero

/-- The number reader is called on the digits and does not take them. -/
def Refused (digits : List Char) : Prop :=
  maxDigits < digits.length ∧ (digits.dropWhile (· = '0')).length ≤ maxSignificant

instance (digits : List Char) : Decidable (Refused digits) := by
  unfold Refused
  infer_instance

/-- Digits that are not refused are decided by their value. -/
theorem numeral_eq {digits : List Char} (hdigits : ∀ c ∈ digits, c.isDigit = true) (span : Span) :
    numeral digits span =
      if Refused digits then .error (.digitLimit digits.length)
      else if Word.maxValue < Text.decimalValue digits then
        .error (.literalOverflow (String.ofList digits) span)
      else .ok (.num (Text.decimalValue digits)) := by
  unfold numeral
  dsimp only
  by_cases hlong : maxSignificant < (digits.dropWhile (· = '0')).length
  · have htaken : ¬Refused digits := fun h => Nat.not_lt.2 h.2 hlong
    rw [if_pos hlong, if_neg htaken, if_pos (maxValue_lt_decimalValue hdigits hlong)]
  · have hrefused : Refused digits ↔ maxDigits < digits.length :=
      ⟨And.left, fun h => ⟨h, Nat.not_lt.1 hlong⟩⟩
    rw [if_neg hlong]
    simp only [hrefused]

/-! ## Runs of digits -/

/-- The characters begin with a run of digits that is as long as can be. -/
structure DigitRun (cs run rest : List Char) : Prop where
  eq_append : cs = run ++ rest
  ne_nil : run ≠ []
  digits : ∀ c ∈ run, c.isDigit = true
  ends : ∀ c ∈ rest.head?, c.isDigit = false

namespace DigitRun

variable {cs run rest : List Char}

/-- The run is the longest piece at its first digit. -/
theorem pieceTail (h : DigitRun cs run rest) :
    ∃ first tail, run = first :: tail ∧ cs = first :: (tail ++ rest) ∧ first.isDigit = true ∧
      Scanner.pieceTail first (tail ++ rest) = tail := by
  obtain ⟨rfl, hne, hdigits, hends⟩ := h
  obtain ⟨first, tail, rfl⟩ := List.exists_cons_of_ne_nil hne
  have hfirst := hdigits first List.mem_cons_self
  refine ⟨first, tail, rfl, rfl, hfirst, ?_⟩
  unfold Scanner.pieceTail
  rw [if_pos hfirst,
    takeWhile_append_of_ends (fun c hc => hdigits c (List.mem_cons_of_mem first hc)) hends]

/-- A piece that begins with a digit is a run. -/
theorem of_isDigit {first : Char} (hfirst : first.isDigit = true) :
    DigitRun (first :: rest) (first :: Scanner.pieceTail first rest)
      (rest.drop (Scanner.pieceTail first rest).length) := by
  have htail : Scanner.pieceTail first rest = rest.takeWhile Char.isDigit := by
    unfold Scanner.pieceTail
    rw [if_pos hfirst]
  rw [htail]
  refine ⟨?_, nofun, ?_, head?_drop_takeWhile _ _⟩
  · rw [drop_length_takeWhile, List.cons_append, List.takeWhile_append_dropWhile]
  · intro c hc
    rcases List.mem_cons.1 hc with rfl | hc
    · exact hfirst
    · exact List.all_eq_true.1 List.all_takeWhile c hc

/-- At a run of digits the scanner passes just the run, and the digits decide. -/
theorem next {s : Scanner} (h : DigitRun (s.rest.dropWhile Text.isBlank) run rest) :
    s.next =
      let blanks := s.rest.takeWhile Text.isBlank
      if Refused run then .error (.digitLimit run.length) (s.pass (blanks ++ run))
      else if Word.maxValue < Text.decimalValue run then
        .error (.literalOverflow (String.ofList run) (s.pieceSpan blanks run))
          (s.pass (blanks ++ run))
      else .ok (some ⟨.num (Text.decimalValue run), s.pieceSpan blanks run⟩)
        (s.pass (blanks ++ run)) := by
  obtain ⟨first, tail, rfl, hcs, hfirst, htail⟩ := h.pieceTail
  rw [next_of_cons hcs, htail]
  dsimp only
  unfold spelled
  rw [if_pos hfirst, numeral_eq h.digits]
  by_cases hrefused : Refused (first :: tail)
  · rw [if_pos hrefused, if_pos hrefused]
  · rw [if_neg hrefused, if_neg hrefused]
    by_cases hvalue : Word.maxValue < Text.decimalValue (first :: tail)
    · rw [if_pos hvalue, if_pos hvalue]
    · rw [if_neg hvalue, if_neg hvalue]

theorem fails_of_refused {s : Scanner} (h : DigitRun (s.rest.dropWhile Text.isBlank) run rest)
    (hrefused : Refused run) : s.Fails (.digitLimit run.length) := by
  refine ⟨s.pass (s.rest.takeWhile Text.isBlank ++ run), ?_⟩
  rw [h.next]
  dsimp only
  rw [if_pos hrefused]

theorem fails_of_overflow {s : Scanner} (h : DigitRun (s.rest.dropWhile Text.isBlank) run rest)
    (htaken : ¬Refused run) (hvalue : Word.maxValue < Text.decimalValue run) :
    s.Fails (.literalOverflow (String.ofList run)
      (s.pieceSpan (s.rest.takeWhile Text.isBlank) run)) := by
  refine ⟨s.pass (s.rest.takeWhile Text.isBlank ++ run), ?_⟩
  rw [h.next]
  dsimp only
  rw [if_neg htaken, if_pos hvalue]

end DigitRun

/-- Only a run of digits that is refused fails without a fault to show. -/
theorem exists_run_of_spelled {first : Char} {rest : List Char} {span : Span} {e : LexError}
    (h : spelled first (pieceTail first rest) span = .error e) (he : e.fault? = none) :
    first.isDigit = true ∧ Refused (first :: pieceTail first rest) ∧
      e = .digitLimit (first :: pieceTail first rest).length := by
  unfold spelled at h
  split at h
  · rename_i hfirst
    rw [numeral_eq (DigitRun.of_isDigit hfirst).digits] at h
    split at h
    · rename_i hrefused
      cases h
      exact ⟨hfirst, hrefused, rfl⟩
    · split at h
      · cases h
        cases he
      · cases h
  · split at h
    · cases h
    · unfold sign at h
      split at h
      · cases h
      · cases h
        cases he

/-- A text fails without a fault to show only at a run of digits that is refused. -/
theorem exists_run_of_error {source : String} {e : LexError} (h : tokens source = .error e)
    (he : e.fault? = none) : ∃ ts s run rest, Scans (.start source.toList) ts s ∧
      DigitRun (s.rest.dropWhile Text.isBlank) run rest ∧ Refused run ∧
      e = .digitLimit run.length := by
  obtain ⟨ts, s, hscans, after, hnext⟩ := tokens_eq_error.1 h
  obtain ⟨first, rest, hrest, hspelled, -⟩ := next_eq_error.1 hnext
  obtain ⟨hfirst, hrefused, rfl⟩ := exists_run_of_spelled hspelled he
  exact ⟨ts, s, _, _, hscans, hrest ▸ DigitRun.of_isDigit hfirst, hrefused, rfl⟩

/-- What becomes of the runs of digits that the scanner reaches in a text. -/
structure DecidesLiterals (source : String) : Prop where
  /-- A run whose value is in range is read as it. -/
  value : ∀ {ts s run rest}, Scans (.start source.toList) ts s →
    DigitRun (s.rest.dropWhile Text.isBlank) run rest → ¬Refused run →
    Text.decimalValue run ≤ Word.maxValue → ∃ s', s'.rest = rest ∧
      s.next = .ok (some ⟨.num (Text.decimalValue run),
        s.pieceSpan (s.rest.takeWhile Text.isBlank) run⟩) s'
  /-- A run whose value is too great is an overflow. -/
  overflow : ∀ {ts s run rest}, Scans (.start source.toList) ts s →
    DigitRun (s.rest.dropWhile Text.isBlank) run rest → ¬Refused run →
    Word.maxValue < Text.decimalValue run →
      tokens source = .error (.literalOverflow (String.ofList run)
        (s.pieceSpan (s.rest.takeWhile Text.isBlank) run))
  /-- A text fails without a fault to show just at a run that is refused. -/
  refused : ∀ e, tokens source = .error e ∧ e.fault? = none ↔
    ∃ ts s run rest, Scans (.start source.toList) ts s ∧
      DigitRun (s.rest.dropWhile Text.isBlank) run rest ∧ Refused run ∧ e = .digitLimit run.length

/-- Every text is cut by the values of its runs of digits, but for those that are refused. -/
theorem tokens_decidesLiterals (source : String) : DecidesLiterals source where
  value {ts s run rest} _ hrun htaken hvalue := by
    refine ⟨s.pass (s.rest.takeWhile Text.isBlank ++ run), ?_, ?_⟩
    · rw [← pass_pass]
      exact rest_pass ((rest_skipBlanks s).trans hrun.eq_append)
    · rw [hrun.next]
      dsimp only
      rw [if_neg htaken, if_neg (Nat.not_lt.2 hvalue)]
  overflow hscans hrun htaken hvalue :=
    tokens_of_fails hscans (hrun.fails_of_overflow htaken hvalue)
  refused e := by
    constructor
    · rintro ⟨h, he⟩
      exact exists_run_of_error h he
    · rintro ⟨ts, s, run, rest, hscans, hrun, hrefused, rfl⟩
      exact ⟨tokens_of_fails hscans (hrun.fails_of_refused hrefused), rfl⟩

end Scanner

end Imp32
