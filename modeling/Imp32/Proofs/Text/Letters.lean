import Imp32.Text.Alphanumeric
import Imp32.Text.Blank

/-!
# Letters, signs and blanks

Where the letters and digits of ASCII lie among the code points, and that they are the only ASCII
characters that count as letters and numerals (`isAlphanumeric_of_ascii`). So signs do not, and
neither do blanks, of ASCII or not.
-/

namespace Imp32.Text

variable {c : Char}

/-! ## Code points -/

/-- The code points of letters. -/
theorem toNat_of_isAlpha (h : c.isAlpha = true) : 0x41 ≤ c.toNat ∧ c.toNat ≤ 0x7A := by
  change (decide (c.val ≥ 'A'.val ∧ c.val ≤ 'Z'.val) ||
    (decide (c.val ≥ 'a'.val) && decide (c.val ≤ 'z'.val))) = true at h
  simp only [Bool.or_eq_true, Bool.and_eq_true, decide_eq_true_eq, ge_iff_le,
    UInt32.le_iff_toNat_le] at h
  have ha : ('a' : Char).val.toNat = 97 := rfl
  have hz : ('z' : Char).val.toNat = 122 := rfl
  have hA : ('A' : Char).val.toNat = 65 := rfl
  have hZ : ('Z' : Char).val.toNat = 90 := rfl
  show 65 ≤ c.val.toNat ∧ c.val.toNat ≤ 122
  omega

theorem isDigit_of_isAlpha (h : c.isAlpha = true) : ¬c.isDigit = true := by
  intro hdigit
  have hlow := (toNat_of_isAlpha h).1
  have hhigh := (Char.isDigit_iff_toNat.1 hdigit).2
  have h9 : '9'.toNat = 57 := rfl
  omega

theorem range_of_isAlphanum (h : c.isAlphanum = true) : 0x20 < c.toNat ∧ c.toNat < 0x7F := by
  obtain h | h := Bool.or_eq_true_iff.1 h
  · have hrange := toNat_of_isAlpha h
    omega
  · have hrange := Char.isDigit_iff_toNat.1 h
    have h0 : '0'.toNat = 48 := rfl
    have h9 : '9'.toNat = 57 := rfl
    omega

/-- What is printed of ASCII is not blank. -/
theorem isBlank_eq_false (h : 0x20 < c.toNat) (h' : c.toNat < 0x7F) : isBlank c = false := by
  refine Bool.eq_false_iff.2 fun hblank => ?_
  obtain ⟨range, hmem, hlow, hhigh⟩ := RangeTable.contains_iff.1 hblank
  have hout : ∀ r ∈ blankTable, r.2 ≤ 0x20 ∨ 0x7F ≤ r.1 := by decide
  have := hout range hmem
  omega

theorem isAlphanum_of_isBlank (h : isBlank c = true) : c.isAlphanum = false := by
  refine Bool.eq_false_iff.2 fun hletter => ?_
  obtain ⟨hlow, hhigh⟩ := range_of_isAlphanum hletter
  rw [isBlank_eq_false hlow hhigh] at h
  cases h

theorem isDigit_of_isBlank (h : isBlank c = true) : c.isDigit = false :=
  (Bool.or_eq_false_iff.1 (isAlphanum_of_isBlank h)).2

theorem ne_equals_of_isBlank (h : isBlank c = true) : c ≠ '=' := by
  rintro rfl
  revert h
  decide

/-! ## Letters and numerals -/

/-- Among the ASCII characters, only the ASCII letters and digits count. -/
theorem isAlphanumeric_of_ascii (h : c.toNat < 0x80) : isAlphanumeric c = c.isAlphanum := by
  have hout : ∀ range ∈ wordTable, 0x80 ≤ range.1 := by decide +kernel
  have hnot : wordTable.contains c = false := by
    refine Bool.eq_false_iff.2 fun hcontains => ?_
    obtain ⟨range, hmem, hlow, -⟩ := RangeTable.contains_iff.1 hcontains
    have := hout range hmem
    omega
  unfold isAlphanumeric
  rw [hnot, Bool.or_false]

/-- An ASCII character that is no letter and no digit. -/
def isSign (c : Char) : Bool := c.toNat < 0x80 && !c.isAlphanum

theorem isAlphanumeric_of_isSign (h : isSign c = true) : isAlphanumeric c = false := by
  obtain ⟨hascii, hnot⟩ := Bool.and_eq_true_iff.1 h
  rw [isAlphanumeric_of_ascii (of_decide_eq_true hascii)]
  simpa using hnot

/-- A blank is no letter and no numeral. -/
theorem isAlphanumeric_of_isBlank (h : isBlank c = true) : isAlphanumeric c = false := by
  have happart : ∀ blank ∈ blankTable, ∀ range ∈ wordTable,
      blank.2 < range.1 ∨ range.2 < blank.1 := by decide +kernel
  refine Bool.eq_false_iff.2 fun hletter => ?_
  obtain hletter | hletter := Bool.or_eq_true_iff.1 hletter
  · rw [isAlphanum_of_isBlank h] at hletter
    cases hletter
  · obtain ⟨blank, hblank, hlow, hhigh⟩ := RangeTable.contains_iff.1 h
    obtain ⟨range, hrange, hlow', hhigh'⟩ := RangeTable.contains_iff.1 hletter
    have := happart blank hblank range hrange
    omega

end Imp32.Text
