import Imp32.Proofs.Spans.Tokens
import Mathlib.Data.Nat.Find
import Mathlib.Logic.Function.Iterate

/-!
# Reading on behind errors

A scanner may be called again and again, behind errors as well. It keeps count of the place that it
has reached (`Counts`), and a call moves it on unless nothing is left to read (`Counts.next`). A
text is therefore used up by no more calls than it has characters (`calls_progress`).
-/

namespace Imp32.Scanner

/-- The scanner behind a call, whatever comes of it. -/
def afterCall (s : Scanner) : Scanner :=
  match s.next with
  | .ok _ s' => s'
  | .error _ s' => s'

/-- The scanner of a text behind so many calls. -/
def afterCalls (source : String) (n : Nat) : Scanner :=
  afterCall^[n] (.start source.toList)

/-- A call reads nothing. -/
def Idle (s : Scanner) : Prop := ∃ s', s.next = .ok none s'

/-- The scanner has read so many characters from the front of the text, and so many bytes. -/
structure Counts (cs : List Char) (s : Scanner) : Prop where
  rest : s.rest = cs.drop s.index
  index_le : s.index ≤ cs.length
  offset : s.offset = Text.utf8Length (cs.take s.index)

/-- A call goes to the end and reads nothing, or it moves on. An error that is shown ends where the
call has come to. -/
def Advances (cs : List Char) (s : Scanner) : Prop :=
  match s.next with
  | .ok none s' => s'.index = cs.length
  | .ok (some _) s' => s.index < s'.index
  | .error e s' => s.index < s'.index ∧ ∀ fault ∈ e.fault?, ∃ span,
      fault.span = some span ∧ span.start < span.stop ∧ span.stop = s'.offset

section Call

variable {cs : List Char} {s s' : Scanner}

theorem counts_start (cs : List Char) : Counts cs (.start cs) :=
  ⟨rfl, Nat.zero_le _, rfl⟩

/-- Passing characters counts them. -/
theorem Counts.pass {xs rest : List Char} (h : Counts cs s) (hrest : s.rest = xs ++ rest) :
    Counts cs (s.pass xs) := by
  have htaken : cs.take (s.index + xs.length) = cs.take s.index ++ xs := by
    rw [List.take_add, ← h.rest, hrest, List.take_left]
  have hlength := congrArg List.length h.rest
  rw [hrest, List.length_append, List.length_drop] at hlength
  have hle := h.index_le
  refine ⟨?_, ?_, ?_⟩
  · show s.rest.drop xs.length = cs.drop (s.index + xs.length)
    rw [h.rest, List.drop_drop]
  · show s.index + xs.length ≤ cs.length
    omega
  · show s.offset + Text.utf8Length xs = Text.utf8Length (cs.take (s.index + xs.length))
    rw [htaken, Text.utf8Length_append, h.offset]

theorem idle_iff : s.Idle ↔ s.AtEnd := by
  constructor
  · rintro ⟨s', hnext⟩
    exact (next_eq_none.1 hnext).1
  · exact fun hend => ⟨_, next_of_nil hend⟩

/-- Behind a call that read nothing, nothing is left. -/
theorem Idle.afterCall (h : s.Idle) : s.afterCall.Idle := by
  obtain ⟨s', hnext⟩ := h
  obtain ⟨hend, rfl⟩ := next_eq_none.1 hnext
  rw [Scanner.afterCall, hnext, idle_iff]
  show s.skipBlanks.rest.dropWhile _ = []
  rw [rest_skipBlanks, hend]
  rfl

/-- A call moves on unless it reads nothing, and counts what it passes. -/
theorem Counts.next (h : Counts cs s) : Counts cs s.afterCall ∧ Advances cs s := by
  unfold Advances afterCall
  cases hrest : s.rest.dropWhile Text.isBlank with
  | nil =>
    rw [next_of_nil hrest]
    have hskip := h.pass (List.takeWhile_append_dropWhile (p := Text.isBlank)).symm
    refine ⟨hskip, ?_⟩
    -- nothing is left behind the blanks
    have hnone := congrArg List.length (hskip.rest.symm.trans ((rest_skipBlanks s).trans hrest))
    have hle := hskip.index_le
    rw [List.length_drop] at hnone
    exact Nat.le_antisymm hle (Nat.sub_eq_zero_iff_le.1 hnone)
  | cons first rest =>
    have hcounts := h.pass (rest_eq_piece hrest)
    have hmoves : s.index <
        (s.pass (s.rest.takeWhile Text.isBlank ++ first :: pieceTail first rest)).index := by
      show s.index < s.index + List.length _
      rw [List.length_append, List.length_cons]
      omega
    cases hspelled : spelled first (pieceTail first rest)
        (s.pieceSpan (s.rest.takeWhile Text.isBlank) (first :: pieceTail first rest)) with
    | ok l =>
      rw [next_of_cons hrest]
      dsimp only
      rw [hspelled]
      exact ⟨hcounts, hmoves⟩
    | error e =>
      rw [next_eq_error.2 ⟨first, rest, hrest, hspelled, rfl⟩]
      have hspan := span_of_spelled hspelled
      refine ⟨hcounts, hmoves, fun fault hfault => ⟨_, hspan fault hfault, ?_, rfl⟩⟩
      have hpos := Text.utf8Length_pos (List.cons_ne_nil first (pieceTail first rest))
      simp only [pieceSpan, Text.utf8Length_append]
      omega

end Call

section Calls

variable (source : String)

theorem afterCalls_succ (n : Nat) : afterCalls source (n + 1) = (afterCalls source n).afterCall :=
  Function.iterate_succ_apply' _ _ _

theorem counts_afterCalls (n : Nat) : Counts source.toList (afterCalls source n) := by
  induction n with
  | zero => exact counts_start _
  | succ n ih =>
    rw [afterCalls_succ]
    exact ih.next.1

theorem Idle.afterCalls {n : Nat} (h : (afterCalls source n).Idle) {k : Nat} (hk : n ≤ k) :
    (afterCalls source k).Idle := by
  induction k, hk using Nat.le_induction with
  | base => exact h
  | succ k _ ih =>
    rw [afterCalls_succ]
    exact ih.afterCall

/-- As long as something is read, each call takes a character at least. -/
theorem le_index_afterCalls {n : Nat} (h : ∀ k < n, ¬(afterCalls source k).Idle) :
    n ≤ (afterCalls source n).index := by
  induction n with
  | zero => exact Nat.zero_le _
  | succ n ih =>
    have hlt : (afterCalls source n).index < (afterCalls source (n + 1)).index := by
      have hadvances := (counts_afterCalls source n).next.2
      rw [afterCalls_succ]
      unfold Advances at hadvances
      unfold afterCall
      cases hnext : (afterCalls source n).next with
      | error e s' =>
        rw [hnext] at hadvances
        exact hadvances.1
      | ok t s' =>
        rw [hnext] at hadvances
        cases t with
        | none => exact absurd ⟨s', hnext⟩ (h n (Nat.lt_succ_self n))
        | some t => exact hadvances
    have := ih fun k hk => h k (Nat.lt_succ_of_lt hk)
    omega

/-- Every call on one scanner moves on until nothing is left, which is so after no more calls than
the text has characters, and then stays so. -/
theorem calls_progress :
    (∀ n, Counts source.toList (afterCalls source n) ∧
      Advances source.toList (afterCalls source n)) ∧
    ∃ n ≤ source.toList.length, ∀ k, (afterCalls source k).Idle ↔ n ≤ k := by
  refine ⟨fun n => ⟨counts_afterCalls source n, (counts_afterCalls source n).next.2⟩, ?_⟩
  classical
  have hexists : ∃ n, n ≤ source.toList.length ∧ (afterCalls source n).Idle := by
    by_contra hnone
    have hle := le_index_afterCalls source (n := source.toList.length + 1)
      fun k hk hidle => hnone ⟨k, Nat.le_of_lt_succ hk, hidle⟩
    have := (counts_afterCalls source (source.toList.length + 1)).index_le
    omega
  obtain ⟨hle, hidle⟩ := Nat.find_spec hexists
  refine ⟨Nat.find hexists, hle, fun k => ⟨fun hk => ?_, fun hk => hidle.afterCalls source hk⟩⟩
  by_contra hlt
  exact Nat.find_min hexists (Nat.lt_of_not_le hlt)
    ⟨Nat.le_trans (Nat.le_of_lt (Nat.lt_of_not_le hlt)) hle, hk⟩

end Calls

end Imp32.Scanner
