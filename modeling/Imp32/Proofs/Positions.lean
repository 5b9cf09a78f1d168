import Imp32.Diagnostic
import Imp32.Proofs.Text.Decoding
import Imp32.Proofs.Text.Lines

/-!
# Positions and lines

`position` counts line feeds and characters (`position_utf8Length`), and the lines that are shown are
cut at every line break. The two agree on a character just if every line in front of it ends with a
line feed: then the line at the position is the line that holds the character, at its column, and
otherwise an earlier line is shown (`located`).
-/

namespace Imp32

open Text

/-! ## Line feeds among the bytes -/

/-- What holds of all of the end belongs to it. -/
theorem rtakeWhile_append_of_all {α : Type} {p : α → Bool} {xs ys : List α}
    (h : ∀ y ∈ ys, p y = true) : (xs ++ ys).rtakeWhile p = xs.rtakeWhile p ++ ys := by
  induction ys using List.reverseRecOn with
  | nil => simp
  | append_singleton ys y ih =>
    rw [← List.append_assoc, List.rtakeWhile_concat_pos _ _ _ (h y (by simp)),
      ih fun z hz => h z (by simp [hz]), List.append_assoc]

theorem utf8EncodeChar_lineFeed : String.utf8EncodeChar '\n' = [Document.lineFeed] := by
  decide

/-- A line feed is a byte of no other character. -/
theorem ne_lineFeed_of_mem {c : Char} (h : c ≠ '\n') {byte : UInt8}
    (hbyte : byte ∈ String.utf8EncodeChar c) : byte ≠ Document.lineFeed := by
  rintro rfl
  have hten : Document.lineFeed.toNat = 10 := rfl
  rcases toNat_of_mem_utf8EncodeChar hbyte with hc | hc
  · exact h (Char.toNat_inj.1 hc.symm)
  · omega

theorem count_utf8 (cs : List Char) : (utf8 cs).count Document.lineFeed = cs.count '\n' := by
  induction cs with
  | nil => rfl
  | cons c cs ih =>
    show (String.utf8EncodeChar c ++ utf8 cs).count _ = _
    rw [List.count_append, ih, List.count_cons]
    by_cases hc : c = '\n'
    · subst hc
      simp [utf8EncodeChar_lineFeed, Nat.add_comm]
    · have hnot : Document.lineFeed ∉ String.utf8EncodeChar c :=
        fun hmem => ne_lineFeed_of_mem hc hmem rfl
      simp [List.count_eq_zero.2 hnot, hc]

/-- The bytes behind the last line feed are those of the characters behind it. -/
theorem lastLine_utf8 (cs : List Char) :
    Document.lastLine (utf8 cs) = utf8 (takeWhileEnd notFeed cs) := by
  induction cs using List.reverseRecOn with
  | nil => rfl
  | append_singleton cs c ih =>
    have hsingle : utf8 [c] = String.utf8EncodeChar c := by simp [utf8]
    show (utf8 (cs ++ [c])).rtakeWhile _ = utf8 ((cs ++ [c]).rtakeWhile notFeed)
    rw [utf8_append, hsingle]
    by_cases hc : c = '\n'
    · subst hc
      rw [utf8EncodeChar_lineFeed, List.rtakeWhile_concat_neg _ _ _ (by decide),
        List.rtakeWhile_concat_neg _ _ _ (by decide)]
      rfl
    · have hbytes : ∀ byte ∈ String.utf8EncodeChar c, decide (byte ≠ Document.lineFeed) = true :=
        fun byte hbyte => decide_eq_true (ne_lineFeed_of_mem hc hbyte)
      rw [List.rtakeWhile_concat_pos _ _ _ (by simpa [notFeed] using hc), utf8_append, hsingle,
        rtakeWhile_append_of_all hbytes]
      exact congrArg (· ++ _) ih

/-- The word at a character of a line is looked up in the line. -/
theorem wordAt_of_line {source : String} {n k : Nat} {line : List Char}
    (hline : (linesOf source.toList)[n]? = some line) (hk : k < line.length) :
    wordAt source n k = String.ofList (wordAround line k) := by
  have hn : ¬(n : Int) < 0 := by omega
  have hk' : 0 ≤ (k : Int) ∧ (k : Int) < line.length := by omega
  unfold wordAt
  rw [if_neg hn, Int.toNat_natCast, hline]
  dsimp only
  rw [if_pos hk', Int.toNat_natCast]

namespace Document

/-! ## Characters and their places -/

section Places

variable {d : Document} {before after : List Char} {c : Char}

/-- The position of a place between characters counts the line feeds and, behind the last one, the
characters. -/
theorem position_utf8Length (htext : d.text.toList = before ++ after) :
    d.position (utf8Length before) =
      ⟨before.count '\n' + 1, (takeWhileEnd notFeed before).length + 1⟩ := by
  have hbytes : d.bytes.take (utf8Length before) = utf8 before := by
    rw [bytes, htext, utf8_append, ← length_utf8, List.take_left]
  unfold position positionAfter
  rw [Int.toNat_natCast, hbytes, count_utf8, lastLine_utf8, decodeLossy_utf8]

/-- The line behind the complete lines holds the character behind them. -/
theorem lineAt_completeLines (htext : d.text.toList = before ++ c :: after)
    (hc : inLine c = true) :
    d.lineAt (completeLines before + 1 : Nat) = String.ofList (lineAround before c after) := by
  have hnumber : ((completeLines before + 1 : Nat) - 1 : Int).toNat = completeLines before := by
    omega
  unfold lineAt lines
  rw [if_pos (by omega), hnumber, List.getElem?_map, htext, getElem?_linesOf hc]
  rfl

/-- The character is shown: the line at its position holds it at the position's column, it is the
line of a snippet that starts there, and the word there is looked up in it. -/
structure Shows (d : Document) (before : List Char) (c : Char) (after : List Char)
    (place : Position) : Prop where
  column : place.column ≤ (d.lineAt place.line).length
  char : (d.lineAt place.line).toList[place.column - 1]? = some c
  snippet (stop : Int) : (Diagnostic.snippet d ⟨utf8Length before, stop⟩).line =
    String.ofList (lineAround before c after)
  word : wordAt d.text (place.line - 1 : Nat) (place.column - 1 : Nat) =
    String.ofList (wordAround (lineAround before c after) (place.column - 1))

/-- How the position of a character and the lines that are shown go together. -/
structure Located (d : Document) (before : List Char) (c : Char) (after : List Char) : Prop where
  /-- This line holds the character. -/
  holds : d.lineAt (completeLines before + 1 : Nat) = String.ofList (lineAround before c after)
  /-- The position has the number of this line just if every line before ends with a line feed. -/
  agrees : (d.position (utf8Length before)).line = completeLines before + 1 ↔ FeedsOnly before
  shows : FeedsOnly before → d.Shows before c after (d.position (utf8Length before))
  /-- Otherwise the position has the number of an earlier line. -/
  earlier : ¬FeedsOnly before → (d.position (utf8Length before)).line < completeLines before + 1

theorem getElem?_lineAround (before after : List Char) (c : Char) :
    (lineAround before c after)[(takeWhileEnd inLine before).length]? = some c := by
  simp [lineAround]

theorem length_lt_lineAround (before after : List Char) (c : Char) :
    (takeWhileEnd inLine before).length < (lineAround before c after).length := by
  simp [lineAround]

theorem shows_of_feedsOnly (htext : d.text.toList = before ++ c :: after) (hc : inLine c = true)
    (h : FeedsOnly before) : d.Shows before c after (d.position (utf8Length before)) := by
  have hplace := position_utf8Length htext
  rw [count_eq_completeLines_iff.2 h, ← takeWhileEnd_eq_of_feedsOnly h] at hplace
  have hline := lineAt_completeLines htext hc
  rw [hplace]
  refine ⟨?_, ?_, fun stop => ?_, ?_⟩
  · rw [hline, String.length_ofList]
    exact length_lt_lineAround before after c
  · rw [hline, String.toList_ofList]
    exact getElem?_lineAround before after c
  · unfold Diagnostic.snippet
    rw [hplace]
    exact hline
  · exact wordAt_of_line (by rw [htext]; exact getElem?_linesOf hc)
      (length_lt_lineAround before after c)

/-- Positions and lines agree on a character just if every line before it ends with a line feed. -/
theorem located (htext : d.text.toList = before ++ c :: after) (hc : inLine c = true) :
    d.Located before c after where
  holds := lineAt_completeLines htext hc
  agrees := by
    rw [position_utf8Length htext, Nat.add_right_cancel_iff]
    exact count_eq_completeLines_iff
  shows := shows_of_feedsOnly htext hc
  earlier h := by
    rw [position_utf8Length htext]
    have hle := count_le_completeLines before
    have hne := mt count_eq_completeLines_iff.1 h
    show before.count '\n' + 1 < completeLines before + 1
    omega

end Places

/-- A form feed ends a line that is shown and no line that is counted. -/
def formFeed : Document := ⟨"a\x0cb;", defaultName⟩

/-- Behind the form feed, the position is in a line that is too short. -/
theorem located_formFeed : formFeed.text.toList = ['a', '\x0c'] ++ 'b' :: [';'] ∧
    inLine 'b' = true ∧ formFeed.Located ['a', '\x0c'] 'b' [';'] ∧ ¬FeedsOnly ['a', '\x0c'] ∧
    formFeed.position 2 = ⟨1, 3⟩ ∧ formFeed.lineAt 1 = "a" :=
  ⟨by decide, by decide, located (by decide) (by decide), by simp [FeedsOnly, inLine, isLineBreak],
    by decide, by decide⟩

end Document

end Imp32
