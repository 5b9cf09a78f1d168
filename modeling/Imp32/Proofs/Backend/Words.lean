import Imp32.Assembly.Listing
import Imp32.Word

/-!
# Words in registers

A register holds a value in its low half, as a number without a sign. Arithmetic on low halves is
arithmetic on values that wraps around (`low_wrap` and the lemmas behind it), the sign of a
difference and its overflow order the values (`sign_bne_overflow`), and repeated multiplication is
the power of values (`low_power_succ`).
-/

namespace Imp32.Assembly

/-- The low half of a register, as a number without a sign. -/
def low (n : Int) : Int := n % 0x100000000

theorem natCast_bits (n : Int) : (bits n : Int) = low n := by
  unfold bits low
  omega

theorem bits_low (n : Int) : bits (low n) = bits n := by
  unfold bits low
  rw [Int.emod_emod]

theorem low_nonneg (n : Int) : 0 ≤ low n := by
  unfold low
  omega

theorem low_lt (n : Int) : low n < 0x100000000 := by
  unfold low
  omega

@[simp] theorem low_low (n : Int) : low (low n) = low n := by
  unfold low
  omega

theorem low_of_lt {n : Int} (h : 0 ≤ n) (h' : n < 0x100000000) : low n = n := by
  unfold low
  omega

/-! ## Arithmetic -/

@[simp] theorem low_wrap (n : Int) : low (Word.wrap n) = low n :=
  Int.bmod_emod

@[simp] theorem wrap_low (n : Int) : Word.wrap (low n) = Word.wrap n :=
  Int.emod_bmod n Word.modulus

theorem wrap_low_of_inRange {n : Int} (h : Word.InRange n) : Word.wrap (low n) = n := by
  rw [wrap_low, Word.wrap_of_inRange h]

theorem low_add (a b : Int) : low (low a + low b) = low (a + b) := by
  unfold low
  omega

theorem low_sub (a b : Int) : low (low a - low b) = low (a - b) := by
  unfold low
  omega

theorem low_neg (a : Int) : low (-low a) = low (-a) := by
  unfold low
  omega

theorem low_mul (a b : Int) : low (low a * low b) = low (a * b) :=
  (Int.mul_emod a b _).symm

/-- A value is zero if its low half is. -/
theorem low_eq_zero_iff {n : Int} (h : Word.InRange n) : low n = 0 ↔ n = 0 := by
  unfold Word.InRange at h
  unfold low
  omega

/-- The last bit is the sign. -/
theorem testBit_sign {n : Int} (h : Word.InRange n) : (bits n).testBit 31 = decide (n < 0) := by
  rw [Nat.testBit_eq_decide_div_mod_eq]
  refine decide_eq_decide.2 ?_
  unfold Word.InRange at h
  unfold bits
  omega

theorem low_wrap_sub (a b : Int) : low (Word.wrap a - Word.wrap b) = low (a - b) := by
  rw [← low_sub, low_wrap, low_wrap, low_sub]

/-! ## Comparisons -/

theorem low_sub_eq_zero_iff {a b : Int} (ha : Word.InRange a) (hb : Word.InRange b) :
    low (a - b) = 0 ↔ a = b := by
  unfold Word.InRange at ha hb
  unfold low
  omega

/-- The sign of a wrapped difference, corrected if it overflows, tells which value is less. -/
theorem sign_bne_overflow {a b : Int} (ha : Word.InRange a) (hb : Word.InRange b) :
    (decide (Word.wrap (a - b) < 0) != decide (¬Word.InRange (a - b))) = decide (a < b) := by
  by_cases hin : Word.InRange (a - b)
  · rw [Word.wrap_of_inRange hin, decide_eq_false (not_not_intro hin), Bool.bne_false]
    refine decide_eq_decide.2 ?_
    omega
  · have hwrap : Word.wrap (a - b) = a - b - 0x100000000 ∨
        Word.wrap (a - b) = a - b + 0x100000000 := by
      unfold Word.InRange at ha hb hin
      unfold Word.wrap Word.modulus
      rw [Int.bmod_def]
      omega
    have hrange := Word.wrap_inRange (a - b)
    rw [decide_eq_true hin, Bool.bne_true, ← decide_not]
    refine decide_eq_decide.2 ?_
    unfold Word.InRange at ha hb hin hrange
    omega

/-! ## Powers -/

theorem powMod_eq (m base exponent : Nat) :
    Word.powMod m base exponent = base.pow exponent % m := by
  show _ = base ^ exponent % m
  fun_induction Word.powMod m base exponent with
  | case1 base => rw [Nat.pow_zero]
  | case2 base exponent _ half heven ih =>
    show half = _
    rw [show half = _ from ih, ← Nat.pow_mod, ← Nat.pow_two, ← Nat.pow_mul]
    congr 2
    omega
  | case3 base exponent _ half hodd ih =>
    rw [show half = _ from ih, ← Nat.pow_mod, ← Nat.pow_two, ← Nat.pow_mul, Nat.mul_mod,
      Nat.mod_mod, ← Nat.mul_mod, ← Nat.pow_succ']
    congr 2
    omega

theorem low_power_zero (base : Int) : low (Word.power base 0) = 1 := by
  unfold Word.power
  rw [low_wrap, powMod_eq]
  rfl

/-- One more factor. -/
theorem low_power_succ (base : Int) (exponent : Nat) :
    low (Word.power base (exponent + 1)) = low (low (Word.power base exponent) * low base) := by
  have hbase : ((base % Word.modulus).toNat : Int) = low base :=
    Int.toNat_of_nonneg (low_nonneg base)
  unfold Word.power
  rw [low_wrap, low_wrap, powMod_eq, powMod_eq]
  show low ((_ ^ exponent * (base % Word.modulus).toNat % _ : Nat) : Int) =
    low (low ((_ ^ exponent % _ : Nat) : Int) * _)
  rw [Int.natCast_emod, Int.natCast_emod, Int.natCast_mul, hbase]
  show low (low _) = low (low (low _) * _)
  rw [low_low, low_low, ← low_mul, low_low]

end Imp32.Assembly
