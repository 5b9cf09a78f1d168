import Imp32.Editor
import Imp32.Proofs.Text.Lines

/-!
# Clients

A client keeps the text of a document and carries out the edits that it is given. Which characters
end a line for it and how it measures a line are its own matter, as long as a line feed ends a line
and nothing does that ends none of the lines shown; a place behind the end of a line or of the text
counts as that end.

For every client, a place behind the last line that is shown is not in front of the end of the text
(`Client.covers_of_lines`), and the text in front of it is the whole text
(`Client.offset_of_lines_le`). So an edit from the start to such a place replaces everything
(`Client.apply_of_lines`).
-/

namespace Imp32

open Text

/-- How a client finds its way in a text. -/
structure Client where
  /-- The character ends a line. -/
  ends : Char → Bool
  /-- The units that a character takes. -/
  width : Char → Nat
  ends_lineFeed : ends '\n' = true
  isLineBreak_of_ends : ∀ c, ends c = true → isLineBreak c = true

namespace Client

/-- The client of the protocol: a carriage return ends a line, too, and lines are measured in units
of 16 bits. -/
def protocol : Client where
  ends c := c = '\n' || c = '\r'
  width c := if c.toNat < 0x10000 then 1 else 2
  ends_lineFeed := rfl
  isLineBreak_of_ends c h := by
    simp only [Bool.or_eq_true, decide_eq_true_eq] at h
    obtain rfl | rfl := h <;> decide

/-- The number of characters of a line in front of a place in it. -/
def offsetIn (client : Client) (character : Nat) : List Char → Nat
  | [] => 0
  | c :: rest =>
    if client.ends c || character < max 1 (client.width c) then 0
    else client.offsetIn (character - client.width c) rest + 1

/-- The number of characters in front of a place. The pair of a carriage return and a line feed ends
one line. -/
def offset (client : Client) : (line character : Nat) → List Char → Nat
  | 0, character, cs => client.offsetIn character cs
  | _ + 1, _, [] => 0
  | line + 1, character, '\r' :: '\n' :: rest => client.offset line character rest + 2
  | line + 1, character, c :: rest =>
    client.offset (if client.ends c then line else line + 1) character rest + 1

/-- The text with an edit carried out. -/
def apply (client : Client) (edit : Edit) (text : String) : String :=
  let cs := text.toList
  let start := client.offset edit.region.startLine edit.region.startCharacter cs
  let stop := client.offset edit.region.stopLine edit.region.stopCharacter cs
  String.ofList (cs.take start ++ edit.text.toList ++ cs.drop stop)

/-- The line in which a text ends, counted from zero. -/
def endLine (client : Client) : List Char → Nat
  | [] => 0
  | '\r' :: '\n' :: rest => client.endLine rest + 1
  | c :: rest => client.endLine rest + if client.ends c then 1 else 0

/-- The units that a part of a line takes. -/
def measure (client : Client) : List Char → Nat
  | [] => 0
  | c :: rest => client.width c + client.measure rest

/-- The units between the start of this line and the end. -/
def endCharacter (client : Client) (cs : List Char) : Nat :=
  client.measure (takeWhileEnd (fun c => !client.ends c) cs)

section Lines

variable {client : Client} {cs : List Char}

theorem not_ends_of_inLine {c : Char} (h : ¬isLineBreak c = true) : client.ends c = false :=
  Bool.eq_false_iff.2 (mt (client.isLineBreak_of_ends c) h)

theorem length_consLine (c : Char) (lines : List (List Char)) :
    (consLine c lines).length = max 1 lines.length := by
  cases lines with
  | nil => rfl
  | cons line lines => simp [consLine]

/-- Behind the last line, a place is the end of the text. -/
theorem offset_of_lines_le {line : Nat} (h : (linesOf cs).length ≤ line) (character : Nat) :
    client.offset line character cs = cs.length := by
  fun_induction linesOf cs generalizing line with
  | case1 => cases line <;> rfl
  | case2 rest ih =>
    cases line with
    | zero => cases h
    | succ line =>
      rw [offset, ih (Nat.le_of_succ_le_succ h)]
      rfl
  | case3 c rest hne hc ih =>
    cases line with
    | zero => cases h
    | succ line =>
      have hrest : (linesOf rest).length ≤ line := Nat.le_of_succ_le_succ h
      rw [offset.eq_4 _ _ _ _ _ hne, ih (by split <;> omega)]
      rfl
  | case4 c rest hne hc ih =>
    rw [length_consLine] at h
    cases line with
    | zero => omega
    | succ line =>
      rw [offset.eq_4 _ _ _ _ _ hne, not_ends_of_inLine hc, ih (by simp; omega)]
      rfl

/-- A text whose last line is empty has a character that ends a line, or none at all. -/
theorem exists_ends_of_takeWhileEnd (h : takeWhileEnd (fun c => !client.ends c) cs = [])
    (hne : cs ≠ []) : ∃ c ∈ cs, (!client.ends c) = false :=
  ⟨cs.getLast hne, List.getLast_mem hne, Bool.eq_false_iff.2 (List.rtakeWhile_eq_nil_iff.1 h hne)⟩

/-- The text ends in one of the lines that are shown, or else right behind the last of them. -/
theorem endLine_lt_or (client : Client) (cs : List Char) :
    client.endLine cs < (linesOf cs).length ∨ client.endLine cs = (linesOf cs).length ∧
      takeWhileEnd (fun c => !client.ends c) cs = [] := by
  fun_induction linesOf cs with
  | case1 => exact .inr ⟨rfl, rfl⟩
  | case2 rest ih =>
    have hfeed : (!client.ends '\n') = false := by rw [client.ends_lineFeed]; rfl
    rw [endLine, List.length_cons, takeWhileEnd_cons_of_exists ⟨'\n', List.mem_cons_self, hfeed⟩,
      takeWhileEnd_cons_of_not (p := fun c => !client.ends c) hfeed]
    exact ih.imp Nat.succ_lt_succ (And.imp_left (congrArg (· + 1)))
  | case3 c rest hne hc ih =>
    rw [endLine.eq_3 _ _ _ hne, List.length_cons]
    cases hends : client.ends c with
    | false =>
      have hle : client.endLine rest ≤ (linesOf rest).length :=
        ih.elim Nat.le_of_lt fun h => Nat.le_of_eq h.1
      exact .inl (Nat.lt_succ_of_le hle)
    | true =>
      rw [if_pos rfl, takeWhileEnd_cons_of_not (p := fun c => !client.ends c) (by simp [hends])]
      exact ih.imp Nat.succ_lt_succ (And.imp_left (congrArg (· + 1)))
  | case4 c rest hne hc ih =>
    rw [endLine.eq_3 _ _ _ hne, not_ends_of_inLine hc, if_neg (by decide), length_consLine]
    obtain hline | ⟨hline, hend⟩ := ih
    · exact .inl (by omega)
    · cases hlines : linesOf rest with
      | nil =>
        rw [hlines] at hline
        exact .inl (by rw [hline]; decide)
      | cons line lines =>
        have hrest : rest ≠ [] := by
          rintro rfl
          cases hlines
        rw [hlines, List.length_cons] at hline
        refine .inr ⟨by rw [List.length_cons]; omega, ?_⟩
        rw [takeWhileEnd_cons_of_exists (exists_ends_of_takeWhileEnd hend hrest), hend]

end Lines

/-- The region goes from the start of the document to its end at least. -/
structure Covers (client : Client) (r : Region) (text : String) : Prop where
  startLine : r.startLine = 0
  startCharacter : r.startCharacter = 0
  stop : client.endLine text.toList < r.stopLine ∨ client.endLine text.toList = r.stopLine ∧
    client.endCharacter text.toList ≤ r.stopCharacter

/-- A region from the start to behind the last line that is shown covers the text. -/
theorem covers_of_lines (client : Client) (text : String) (character : Nat) :
    client.Covers ⟨0, 0, (linesOf text.toList).length, character⟩ text where
  startLine := rfl
  startCharacter := rfl
  stop := by
    refine (client.endLine_lt_or text.toList).imp_right (And.imp_right fun hend => ?_)
    unfold endCharacter
    rw [hend]
    exact Nat.zero_le character

theorem offset_zero (client : Client) (cs : List Char) : client.offset 0 0 cs = 0 := by
  cases cs with
  | nil => rfl
  | cons c rest =>
    have hpos : 0 < max 1 (client.width c) := Nat.lt_of_lt_of_le Nat.zero_lt_one (Nat.le_max_left ..)
    simp [offset, offsetIn, hpos]

/-- An edit of such a region leaves its own text. -/
theorem apply_of_lines (client : Client) (edit : Edit) (text : String) (character : Nat)
    (h : edit.region = ⟨0, 0, (linesOf text.toList).length, character⟩) :
    client.apply edit text = edit.text := by
  unfold apply
  rw [h]
  dsimp only
  rw [offset_zero, offset_of_lines_le (Nat.le_refl _), List.take_zero, List.nil_append,
    List.drop_length, List.append_nil, String.ofList_toList]

end Client

end Imp32
