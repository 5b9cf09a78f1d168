/-!
# Words

Values are integers from -2³¹ to 2³¹ - 1, and arithmetic on them wraps around. `wrap` takes any
integer to the value it is congruent to modulo 2³²; the operations compute on unbounded integers
and wrap their result.
-/

namespace Imp32.Word

/-- The number of words, 2³². -/
def modulus : Nat := 0x100000000

def maxValue : Nat := 0x7FFFFFFF

/-- The integer is a value. -/
def InRange (n : Int) : Prop := -0x80000000 ≤ n ∧ n < 0x80000000

instance (n : Int) : Decidable (InRange n) := inferInstanceAs (Decidable (_ ∧ _))

/-- The value that an integer is congruent to. -/
def wrap (n : Int) : Int :=
  n.bmod modulus

theorem wrap_inRange (n : Int) : InRange (wrap n) := by
  have h₁ := Int.le_bmod (x := n) (m := modulus) (by decide)
  have h₂ := Int.bmod_lt (x := n) (m := modulus) (by decide)
  simp only [InRange, wrap]
  simp only [modulus] at *
  omega

theorem wrap_of_inRange {n : Int} (h : InRange n) : wrap n = n := by
  simp only [InRange] at h
  simp only [wrap, modulus]
  rw [Int.bmod_def]
  omega

/-- The quotient rounded toward zero, wrapped. -/
def quotient (a b : Int) : Int :=
  wrap (a.tdiv b)

/-- A power modulo `m`, by squaring. -/
def powMod (m base exponent : Nat) : Nat :=
  if exponent = 0 then 1 % m
  else
    let half := powMod m (base * base % m) (exponent / 2)
    if exponent % 2 = 0 then half else base * half % m
termination_by exponent
decreasing_by omega

/-- The product of `exponent` factors `base`, wrapped. -/
def power (base : Int) (exponent : Nat) : Int :=
  wrap (powMod modulus (base % modulus).toNat exponent)

/-- A power with an exponent of any sign. An odd number has an inverse, and its exponents count
modulo 2³⁰; an even one has none. -/
def power? (base exponent : Int) : Option Int :=
  if 0 ≤ exponent then some (power base exponent.toNat)
  else if base % 2 = 0 then none
  else some (power base (exponent % 0x40000000).toNat)

end Imp32.Word
