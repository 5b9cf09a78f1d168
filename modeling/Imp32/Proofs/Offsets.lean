import Imp32.Proofs.Positions
import Imp32.Proofs.Spans.Tokens
import Mathlib.Data.Nat.Find

/-!
# Offsets and positions

A byte offset between two characters has the position that the characters in front of it make, and
different ones have different positions, in the order of the text. An offset inside a character has
the position of the character's end (`Document.position_of_inside`), so that positions are in order
at all offsets, and the region of a span is never reversed. Between characters, the region of a span
determines the span (`Document.translates`).

What carries it is how a character moves the position: a line feed to the start of the next line,
and any other character by a column (`Document.position_succ`).
-/

namespace Imp32

open Text

/-! ## The order of positions -/

/-- The place stands in front of the other, on an earlier line or further left. -/
def Position.Before (a b : Position) : Prop :=
  a.line < b.line ∨ a.line = b.line ∧ a.column < b.column

namespace Position.Before

variable {a b c : Position}

theorem trans (h : a.Before b) (h' : b.Before c) : a.Before c := by
  unfold Position.Before at *
  omega

theorem ne (h : a.Before b) : a ≠ b := by
  rintro rfl
  unfold Position.Before at h
  omega

end Position.Before

theorem Position.eq_of {a b : Position} (hline : a.line = b.line) (hcolumn : a.column = b.column) :
    a = b := by
  cases a
  cases b
  simp_all

def Region.Ordered (r : Region) : Prop :=
  r.startLine < r.stopLine ∨ r.startLine = r.stopLine ∧ r.startCharacter ≤ r.stopCharacter

namespace Document

/-- The bytes in front of the character with the index. -/
def offsetOf (d : Document) (i : Nat) : Nat :=
  utf8Length (d.text.toList.take i)

variable {d : Document}

/-! ## Between characters -/

section Characters

variable {i j : Nat}

theorem position_offsetOf (d : Document) (i : Nat) : d.position (d.offsetOf i) =
    ⟨(d.text.toList.take i).count '\n' + 1,
      (takeWhileEnd notFeed (d.text.toList.take i)).length + 1⟩ :=
  position_utf8Length (List.take_append_drop i d.text.toList).symm

theorem offsetOf_length (d : Document) : d.offsetOf d.text.toList.length = d.size := by
  unfold offsetOf size
  rw [List.take_length]

theorem take_succ_of_getElem? {c : Char} (h : d.text.toList[i]? = some c) :
    d.text.toList.take (i + 1) = d.text.toList.take i ++ [c] := by
  rw [List.take_add_one, h]
  rfl

theorem offsetOf_succ {c : Char} (h : d.text.toList[i]? = some c) :
    d.offsetOf (i + 1) = d.offsetOf i + c.utf8Size := by
  unfold offsetOf
  rw [take_succ_of_getElem? h, utf8Length_append]
  rfl

/-- A character moves the position to the start of the next line, if it is a line feed, and to the
next column otherwise. -/
theorem position_succ {c : Char} (h : d.text.toList[i]? = some c) :
    d.position (d.offsetOf (i + 1)) =
      if c = '\n' then ⟨(d.position (d.offsetOf i)).line + 1, 1⟩
      else ⟨(d.position (d.offsetOf i)).line, (d.position (d.offsetOf i)).column + 1⟩ := by
  rw [position_offsetOf, position_offsetOf, take_succ_of_getElem? h, List.count_append]
  unfold takeWhileEnd
  rw [List.reverse_append]
  by_cases hc : c = '\n'
  · subst hc
    simp [notFeed]
  · simp [notFeed, hc]

theorem before_succ (hi : i < d.text.toList.length) :
    (d.position (d.offsetOf i)).Before (d.position (d.offsetOf (i + 1))) := by
  rw [position_succ (List.getElem?_eq_getElem hi)]
  unfold Position.Before
  split
  · exact .inl (Nat.lt_succ_self _)
  · exact .inr ⟨rfl, Nat.lt_succ_self _⟩

/-- Positions between characters are in the order of the text. -/
theorem before_of_lt (hij : i < j) (hj : j ≤ d.text.toList.length) :
    (d.position (d.offsetOf i)).Before (d.position (d.offsetOf j)) := by
  induction j, hij using Nat.le_induction with
  | base => exact before_succ hj
  | succ j hij ih => exact (ih (by omega)).trans (before_succ (by omega))

theorem offsetOf_mono (hij : i ≤ j) : d.offsetOf i ≤ d.offsetOf j := by
  obtain ⟨k, rfl⟩ := Nat.exists_eq_add_of_le hij
  unfold offsetOf
  rw [List.take_add, utf8Length_append]
  exact Nat.le_add_right _ _

theorem offsetOf_lt (hij : i < j) (hi : i < d.text.toList.length) :
    d.offsetOf i < d.offsetOf j := by
  have hnext := offsetOf_succ (List.getElem?_eq_getElem hi)
  have hle : d.offsetOf (i + 1) ≤ d.offsetOf j := offsetOf_mono hij
  have hpos := (d.text.toList[i]).utf8Size_pos
  omega

/-- A place between characters is that in front of some character, or the end. -/
theorem isBoundary_iff {offset : Int} : IsBoundary d.text.toList offset ↔
    ∃ i ≤ d.text.toList.length, offset = d.offsetOf i := by
  constructor
  · rintro ⟨before, after, htext, rfl⟩
    refine ⟨before.length, by simp [htext], ?_⟩
    unfold offsetOf
    rw [htext, List.take_left]
  · rintro ⟨i, -, rfl⟩
    exact ⟨_, _, (List.take_append_drop i _).symm, rfl⟩

end Characters

/-! ## Any offset -/

theorem position_of_nonpos {offset : Int} (h : offset ≤ 0) :
    d.position offset = d.position (d.offsetOf 0) := by
  have hzero : offset.toNat = 0 := by omega
  unfold position
  rw [hzero]
  rfl

theorem position_of_size_le {offset : Int} (h : (d.size : Int) ≤ offset) :
    d.position offset = d.position (d.offsetOf d.text.toList.length) := by
  have hlength : d.bytes.length = d.size := length_utf8 _
  rw [offsetOf_length]
  unfold position
  rw [Int.toNat_natCast, List.take_of_length_le (by omega), List.take_of_length_le (by omega)]

/-- Where the first bytes of a character are cut off, they count as a character. -/
theorem position_of_inside {before after : List Char} {c : Char} {n : Nat}
    (htext : d.text.toList = before ++ c :: after) (hlow : utf8Length before < n)
    (hhigh : n < utf8Length (before ++ [c])) :
    d.position n = d.position (utf8Length (before ++ [c])) := by
  obtain ⟨k, rfl⟩ := Nat.exists_eq_add_of_lt hlow
  have hlength : (String.utf8EncodeChar c).length = c.utf8Size := String.length_utf8EncodeChar c
  have hk : k + 1 < (String.utf8EncodeChar c).length := by
    simp only [utf8Length_append, utf8Length] at hhigh
    omega
  -- a line feed is a single byte, so that there is none among the bytes that are left
  have hc : c ≠ '\n' := by
    rintro rfl
    rw [utf8EncodeChar_lineFeed, List.length_singleton] at hk
    omega
  have hne : ∀ byte ∈ (String.utf8EncodeChar c).take (k + 1), byte ≠ lineFeed :=
    fun byte hbyte => ne_lineFeed_of_mem hc (List.mem_of_mem_take hbyte)
  have hbytes : d.bytes.take (utf8Length before + k + 1) =
      utf8 before ++ (String.utf8EncodeChar c).take (k + 1) := by
    have hsplit : d.bytes = utf8 before ++ (String.utf8EncodeChar c ++ utf8 after) := by
      rw [bytes, htext, utf8_append]
      rfl
    rw [hsplit, ← length_utf8, Nat.add_assoc, List.take_length_add_append,
      List.take_append_of_le_length (by omega)]
  have hcount : (utf8 before ++ (String.utf8EncodeChar c).take (k + 1)).count lineFeed =
      before.count '\n' := by
    rw [List.count_append, count_utf8, List.count_eq_zero.2 fun hmem => hne _ hmem rfl,
      Nat.add_zero]
  have hlast : lastLine (utf8 before ++ (String.utf8EncodeChar c).take (k + 1)) =
      utf8 (takeWhileEnd notFeed before) ++ (String.utf8EncodeChar c).take (k + 1) := by
    rw [← lastLine_utf8]
    exact rtakeWhile_append_of_all fun byte hbyte => decide_eq_true (hne byte hbyte)
  have hline : takeWhileEnd notFeed (before ++ [c]) = takeWhileEnd notFeed before ++ [c] :=
    rtakeWhile_append_of_all (by simpa [notFeed] using hc)
  have hend := position_utf8Length (htext.trans (List.append_cons before c after))
  rw [hend, hline, List.count_append, List.count_singleton]
  unfold position positionAfter
  rw [Int.toNat_natCast, hbytes, hcount, hlast, decodeLossy, decodeFrom_utf8_append,
    decodeFrom_take_utf8EncodeChar c (Nat.succ_pos k) hk]
  simp [hc]

/-- Every offset has the position of the first place between characters that it does not exceed. -/
theorem exists_index (d : Document) (offset : Int) : ∃ i ≤ d.text.toList.length,
    d.position offset = d.position (d.offsetOf i) ∧ (∀ j < i, (d.offsetOf j : Int) < offset) ∧
      (i < d.text.toList.length → offset ≤ d.offsetOf i) := by
  by_cases hlow : offset ≤ 0
  · exact ⟨0, Nat.zero_le _, position_of_nonpos hlow, nofun, fun _ => hlow⟩
  by_cases hhigh : (d.size : Int) ≤ offset
  · refine ⟨_, Nat.le_refl _, position_of_size_le hhigh, fun j hj => ?_,
      fun h => absurd h (Nat.lt_irrefl _)⟩
    have hlt := offsetOf_lt hj hj
    rw [offsetOf_length] at hlt
    omega
  obtain ⟨n, rfl⟩ := Int.eq_ofNat_of_zero_le (Int.le_of_lt (Int.not_le.1 hlow))
  have hexists : ∃ i, n ≤ d.offsetOf i := ⟨d.text.toList.length, by rw [offsetOf_length]; omega⟩
  obtain ⟨i, hi, hbefore⟩ : ∃ i, n ≤ d.offsetOf i ∧ ∀ j < i, d.offsetOf j < n :=
    ⟨Nat.find hexists, Nat.find_spec hexists, fun j hj => Nat.not_le.1 (Nat.find_min hexists hj)⟩
  cases i with
  | zero => exact absurd (Int.ofNat_le.2 hi) hlow
  | succ i =>
    have hi' : i < d.text.toList.length := by
      by_contra hle
      have hlast := hbefore i (Nat.lt_succ_self i)
      unfold offsetOf at hlast
      rw [List.take_of_length_le (Nat.not_lt.1 hle)] at hlast
      exact hhigh (Int.ofNat_le.2 (Nat.le_of_lt hlast))
    refine ⟨i + 1, hi', ?_, fun j hj => Int.ofNat_lt.2 (hbefore j hj), fun _ => Int.ofNat_le.2 hi⟩
    obtain heq | hlt := Nat.eq_or_lt_of_le hi
    · rw [heq]
    · have hcut : d.text.toList =
          d.text.toList.take i ++ d.text.toList[i] :: d.text.toList.drop (i + 1) := by
        rw [List.getElem_cons_drop, List.take_append_drop]
      have htake := take_succ_of_getElem? (List.getElem?_eq_getElem hi')
      unfold offsetOf at hlt ⊢
      rw [htake] at hlt ⊢
      exact position_of_inside hcut (hbefore i (Nat.lt_succ_self i)) hlt

/-- Positions are in the order of the offsets, whatever the offsets are. -/
theorem position_mono {offset offset' : Int} (h : offset ≤ offset') :
    d.position offset = d.position offset' ∨ (d.position offset).Before (d.position offset') := by
  obtain ⟨i, hi, hplace, hbefore, -⟩ := d.exists_index offset
  obtain ⟨j, hj, hplace', -, hreached⟩ := d.exists_index offset'
  rw [hplace, hplace']
  obtain hij | hij | hji := Nat.lt_trichotomy i j
  · exact .inr (before_of_lt hij hj)
  · exact .inl (by rw [hij])
  · -- the first index would have been reached before
    have hlt := hbefore j hji
    have hle := hreached (by omega)
    omega

/-! ## Regions -/

theorem one_le_position (d : Document) (offset : Int) :
    1 ≤ (d.position offset).line ∧ 1 ≤ (d.position offset).column :=
  ⟨Nat.le_add_left _ _, Nat.le_add_left _ _⟩

theorem region_ordered {span : Span} (h : span.start ≤ span.stop) : (d.region span).Ordered := by
  have hstart := d.one_le_position span.start
  have hstop := d.one_le_position span.stop
  unfold region Region.Ordered
  dsimp only
  obtain heq | hbefore := position_mono (d := d) h
  · rw [heq]
    exact .inr ⟨rfl, Nat.le_refl _⟩
  · unfold Position.Before at hbefore
    omega

/-- Both ends of the span are between characters. -/
def Bounds (d : Document) (span : Span) : Prop :=
  IsBoundary d.text.toList span.start ∧ IsBoundary d.text.toList span.stop

/-- The ends of a span between characters are in front of characters, or at the end. -/
theorem Bounds.exists_offsetOf {span : Span} (h : d.Bounds span) (hle : span.start ≤ span.stop) :
    ∃ i j, i ≤ j ∧ j ≤ d.text.toList.length ∧ span = ⟨d.offsetOf i, d.offsetOf j⟩ := by
  obtain ⟨i, hi, hstart⟩ := isBoundary_iff.1 h.1
  obtain ⟨j, hj, hstop⟩ := isBoundary_iff.1 h.2
  refine ⟨i, j, ?_, hj, ?_⟩
  · by_contra hlt
    have hoffset := offsetOf_lt (d := d) (Nat.not_le.1 hlt) (by omega)
    omega
  · cases span
    simp_all

theorem position_inj {offset offset' : Int} (h : IsBoundary d.text.toList offset)
    (h' : IsBoundary d.text.toList offset') (heq : d.position offset = d.position offset') :
    offset = offset' := by
  obtain ⟨i, hi, rfl⟩ := isBoundary_iff.1 h
  obtain ⟨j, hj, rfl⟩ := isBoundary_iff.1 h'
  obtain hij | rfl | hji := Nat.lt_trichotomy i j
  · exact absurd heq (before_of_lt hij hj).ne
  · rfl
  · exact absurd heq.symm (before_of_lt hji hi).ne

theorem region_inj {a b : Span} (ha : d.Bounds a) (hb : d.Bounds b)
    (h : d.region a = d.region b) : a = b := by
  have hposition : ∀ {offset offset' : Int},
      (d.position offset).line - 1 = (d.position offset').line - 1 →
      (d.position offset).column - 1 = (d.position offset').column - 1 →
      d.position offset = d.position offset' := by
    intro offset offset' hline hcolumn
    have hone := d.one_le_position offset
    have hone' := d.one_le_position offset'
    exact Position.eq_of (by omega) (by omega)
  simp only [region, Region.mk.injEq] at h
  have hstart := position_inj ha.1 hb.1 (hposition h.1 h.2.1)
  have hstop := position_inj ha.2 hb.2 (hposition h.2.2.1 h.2.2.2)
  cases a
  cases b
  simp_all

/-- How offsets, positions and regions go together. -/
structure Translates (d : Document) : Prop where
  /-- The position of a place between characters counts the line feeds in front of it, and the
  characters between it and the last of them, both from one. -/
  counts : ∀ i ≤ d.text.toList.length, d.position (d.offsetOf i) =
    ⟨1 + (d.text.toList.take i).count '\n',
      1 + (takeWhileEnd (· ≠ '\n') (d.text.toList.take i)).length⟩
  below : ∀ offset < 0, d.position offset = d.position (d.offsetOf 0)
  beyond : ∀ offset > (d.offsetOf d.text.toList.length : Int),
    d.position offset = d.position (d.offsetOf d.text.toList.length)
  increasing : ∀ i j, i < j → j ≤ d.text.toList.length →
    (d.position (d.offsetOf i)).Before (d.position (d.offsetOf j))
  ordered : ∀ span : Span, span.start ≤ span.stop → (d.region span).Ordered
  determined : ∀ a b : Span, d.Bounds a → d.Bounds b → d.region a = d.region b → a = b

/-- Offsets between characters are translated to the lines and columns of the text, strictly in
order, and offsets outside the text to those of its ends. So regions are in order, and between
characters they determine their spans. -/
theorem translates (d : Document) : d.Translates where
  counts i _ := by
    rw [position_offsetOf, Nat.add_comm, Nat.add_comm (takeWhileEnd _ _).length]
    rfl
  below offset h := position_of_nonpos (Int.le_of_lt h)
  beyond offset h := position_of_size_le (d.offsetOf_length ▸ Int.le_of_lt h)
  increasing _ _ := before_of_lt
  ordered _ := region_ordered
  determined _ _ := region_inj

/-- A character of two bytes in front of a line feed: the offset inside the character has the
position of its end, and the offset of the line feed is in the first line. -/
example : (⟨"\u00e9\nx", defaultName⟩ : Document).position 1 = ⟨1, 2⟩ ∧
    (⟨"\u00e9\nx", defaultName⟩ : Document).position 2 = ⟨1, 2⟩ ∧
    (⟨"\u00e9\nx", defaultName⟩ : Document).position 3 = ⟨2, 1⟩ := by decide

end Document

end Imp32
