/-!
# Spans

A span is a half-open range of byte offsets. Offsets are integers, so that a span which was not
taken from a text is a span too.
-/

namespace Imp32

/-- The bytes from `start` up to, and without, `stop`. -/
structure Span where
  start : Int
  stop : Int
  deriving DecidableEq, Repr

namespace Span

/-- The span of a tree that was not read from a text. -/
def none : Span := ⟨0, 0⟩

instance : Inhabited Span := ⟨none⟩

/-- The least span that holds both. -/
def join (a b : Span) : Span :=
  ⟨min a.start b.start, max a.stop b.stop⟩

/-- The span as a whole moved by a number of bytes. -/
def shift (a : Span) (n : Int) : Span :=
  ⟨a.start + n, a.stop + n⟩

/-- The span as text, its ends joined by two points. -/
def text (a : Span) : String :=
  s!"{a.start}..{a.stop}"

theorem join_comm (a b : Span) : a.join b = b.join a := by
  simp [join, Int.min_comm, Int.max_comm]

/-- Joining commutes with moving. -/
theorem shift_join (a b : Span) (n : Int) : (a.join b).shift n = (a.shift n).join (b.shift n) := by
  simp only [join, shift, mk.injEq]
  omega

end Span

end Imp32
