import Imp32.Proofs.Backend.Words
import Mathlib.Data.Int.ModEq
import Mathlib.Data.Rat.Floor

/-!
# Power and quotient by their plain definitions

A power is computed by squaring residues, and a quotient from unbounded integers. Both are what
their plain definitions give (`power_quotient_plain`): a power is the product that a loop comes to
which multiplies by the base, one factor after the other, and wraps every product; a quotient is the
rational quotient rounded toward zero, and on values the signed division of words.
-/

namespace Imp32.Word

open Assembly (low low_mul low_power_zero low_power_succ wrap_low wrap_low_of_inRange)

/-! ## Powers -/

theorem wrap_low_power (base : Int) (n : Nat) : wrap (low (power base n)) = power base n :=
  wrap_low_of_inRange (wrap_inRange _)

theorem power_zero (base : Int) : power base 0 = 1 := by
  rw [← wrap_low_power, low_power_zero]
  exact wrap_of_inRange (by decide)

/-- One more factor, and the product is wrapped. -/
theorem power_succ (base : Int) (n : Nat) :
    power base (n + 1) = wrap (power base n * base) := by
  rw [← wrap_low_power, low_power_succ, low_mul, wrap_low]

/-- The loop that starts with 1 and multiplies by the base, wrapping each product. -/
theorem power_eq_iterate (base : Int) (n : Nat) :
    power base n = (fun product => wrap (product * base))^[n] 1 := by
  induction n with
  | zero => exact power_zero base
  | succ n ih => rw [Function.iterate_succ_apply', ← ih, power_succ]

/-- The same loop on the low halves of registers. -/
theorem low_power_eq_iterate (base : Int) (n : Nat) :
    low (power base n) = (fun product => low (product * low base))^[n] 1 := by
  induction n with
  | zero => exact low_power_zero base
  | succ n ih => rw [Function.iterate_succ_apply', ← ih, low_power_succ]

theorem power_congr {base base' : Int} (h : base' ≡ base [ZMOD modulus]) (n : Nat) :
    power base' n = power base n := by
  unfold power
  rw [h.eq]

/-! ## Quotients -/

/-- The rational number rounded toward zero. -/
def truncate (x : ℚ) : Int :=
  if 0 ≤ x then ⌊x⌋ else ⌈x⌉

/-- The quotient of the magnitudes, rounded down, with the sign of the quotient. -/
def signedQuotient (a b : Int) : Int :=
  let magnitude : Int := (a.natAbs / b.natAbs : Nat)
  if a < 0 ↔ b < 0 then magnitude else -magnitude

theorem tdiv_natCast_eq_truncate (a : Int) (d : Nat) : a.tdiv d = truncate ((a : ℚ) / (d : ℚ)) := by
  unfold truncate
  rcases Int.lt_or_le a 0 with ha | ha
  · obtain rfl | hd := Nat.eq_zero_or_pos d
    · simp
    · have hneg : ¬0 ≤ (a : ℚ) / (d : ℚ) :=
        not_le.2 (div_neg_of_neg_of_pos (Int.cast_lt_zero.2 ha) (Nat.cast_pos.2 hd))
      rw [if_neg hneg, Rat.ceil_intCast_div_natCast,
        ← Int.tdiv_eq_ediv_of_nonneg (by omega : 0 ≤ -a), Int.neg_tdiv, Int.neg_neg]
  · have hpos : 0 ≤ (a : ℚ) / (d : ℚ) := div_nonneg (Int.cast_nonneg ha) (Nat.cast_nonneg d)
    rw [if_pos hpos, Rat.floor_intCast_div_natCast, Int.tdiv_eq_ediv_of_nonneg ha]

theorem tdiv_eq_truncate (a b : Int) : a.tdiv b = truncate ((a : ℚ) / (b : ℚ)) := by
  obtain ⟨d, rfl | rfl⟩ := Int.eq_nat_or_neg b
  · exact_mod_cast tdiv_natCast_eq_truncate a d
  · rw [Int.tdiv_neg, ← Int.neg_tdiv, tdiv_natCast_eq_truncate]
    push_cast
    rw [neg_div, div_neg]

/-- One case for each pair of signs. -/
theorem tdiv_eq_signedQuotient (a b : Int) : a.tdiv b = signedQuotient a b := by
  unfold signedQuotient
  cases a with
  | ofNat m =>
    cases b with
    | ofNat n => exact (if_pos (iff_of_false (by simp) (by simp))).symm
    | negSucc n => exact (if_neg fun h => absurd (h.2 (Int.negSucc_lt_zero n)) (by simp)).symm
  | negSucc m =>
    cases b with
    | ofNat n => exact (if_neg fun h => absurd (h.1 (Int.negSucc_lt_zero m)) (by simp)).symm
    | negSucc n =>
      exact (if_pos (iff_of_true (Int.negSucc_lt_zero m) (Int.negSucc_lt_zero n))).symm

/-- The least value over -1 is the one quotient of a value that is no value. -/
theorem tdiv_inRange_iff {a b : Int} (ha : InRange a) :
    InRange (a.tdiv b) ↔ ¬(a = -0x80000000 ∧ b = -1) := by
  constructor
  · rintro h ⟨rfl, rfl⟩
    exact absurd h (by decide)
  · intro hpair
    have habs : (a.tdiv b).natAbs ≤ a.natAbs := Int.natAbs_tdiv_le_natAbs a b
    unfold InRange at *
    by_cases hleast : a = -0x80000000
    · rcases Int.lt_or_le b 0 with hb | hb
      · have hhalf : (a.tdiv b).natAbs ≤ a.natAbs / 2 := by
          rw [Int.natAbs_tdiv]
          exact Nat.div_le_div_left (by omega) (by decide)
        omega
      · have hsign : 0 ≤ (-a).tdiv b := Int.tdiv_nonneg (by omega) hb
        rw [Int.neg_tdiv] at hsign
        omega
    · omega

theorem wrap_eq_self_iff {n : Int} : wrap n = n ↔ InRange n :=
  ⟨fun h => h ▸ wrap_inRange n, wrap_of_inRange⟩

theorem toInt_ofInt_of_inRange {n : Int} (h : InRange n) : (BitVec.ofInt 32 n).toInt = n := by
  rw [BitVec.toInt_ofInt]
  exact wrap_of_inRange h

/-- Between values, the signed division of words. -/
theorem quotient_eq_sdiv {a b : Int} (ha : InRange a) (hb : InRange b) :
    quotient a b = ((BitVec.ofInt 32 a).sdiv (BitVec.ofInt 32 b)).toInt := by
  rw [BitVec.toInt_sdiv, toInt_ofInt_of_inRange ha, toInt_ofInt_of_inRange hb]
  rfl

/-! ## The plain definitions -/

/-- The power is the loop of multiplications, of values as of registers, and only the residue of the
base matters. -/
structure PlainPower (base : Int) (n : Nat) : Prop where
  defined : power? base n = some (power base n)
  iterated : power base n = (fun product => wrap (product * base))^[n] 1
  registers : low (power base n) = (fun product => low (product * low base))^[n] 1
  residue : ∀ base', base' ≡ base [ZMOD modulus] → power base' n = power base n

/-- The quotient is the rational one rounded toward zero, which is that of the magnitudes with a
sign, and the one of signed words between values. A quotient of a value wraps around just if it is
that of the least value over -1. -/
structure PlainQuotient (a b : Int) : Prop where
  truncated : quotient a b = wrap (truncate ((a : ℚ) / (b : ℚ)))
  magnitudes : quotient a b = wrap (signedQuotient a b)
  machine : InRange a → InRange b →
    quotient a b = ((BitVec.ofInt 32 a).sdiv (BitVec.ofInt 32 b)).toInt
  unwrapped : InRange a →
    (quotient a b = truncate ((a : ℚ) / (b : ℚ)) ↔ ¬(a = -0x80000000 ∧ b = -1))

/-- Powers and quotients are what their plain definitions give, and the least value over -1 is the
least value. -/
theorem power_quotient_plain (base : Int) (n : Nat) (a b : Int) :
    PlainPower base n ∧ PlainQuotient a b ∧ quotient (-0x80000000) (-1) = -0x80000000 := by
  refine ⟨⟨?_, power_eq_iterate base n, low_power_eq_iterate base n, fun _ h => power_congr h n⟩,
    ⟨?_, ?_, quotient_eq_sdiv, fun ha => ?_⟩, by decide⟩
  · exact if_pos (Int.natCast_nonneg n)
  · exact congrArg wrap (tdiv_eq_truncate a b)
  · exact congrArg wrap (tdiv_eq_signedQuotient a b)
  · rw [← tdiv_eq_truncate]
    exact wrap_eq_self_iff.trans (tdiv_inRange_iff ha)

end Imp32.Word
