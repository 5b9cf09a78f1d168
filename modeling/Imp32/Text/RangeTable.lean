/-!
# Tables of code point ranges

A property of characters is listed as the ranges of code points that have it, each given by its
first and its last member.
-/

namespace Imp32.Text

/-- Ranges of code points, each as its first and last member. -/
abbrev RangeTable := List (Nat × Nat)

def RangeTable.contains (table : RangeTable) (c : Char) : Bool :=
  table.any fun range => range.1 ≤ c.toNat && c.toNat ≤ range.2

/-- A character lies in a table exactly when some range of it holds the code point. -/
theorem RangeTable.contains_iff {table : RangeTable} {c : Char} :
    table.contains c = true ↔ ∃ range ∈ table, range.1 ≤ c.toNat ∧ c.toNat ≤ range.2 := by
  simp [RangeTable.contains]

end Imp32.Text
