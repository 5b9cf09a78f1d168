import Imp32.Editor
import Mathlib.Data.List.DropRight

/-!
# The line that holds a character

A text is cut into lines at every line break, and positions count line feeds alone. This module says
which of the lines holds a character (`getElem?_linesOf`), by what stands in front of it: the lines
that are complete there, and what stands behind the last break. It says where counting line feeds
comes to the same: where every line ends with a line feed (`count_eq_completeLines_iff`,
`takeWhileEnd_eq_of_feedsOnly`). Where line feeds alone end lines, their number leads to the line
around any place, be it behind the last line feed (`FeedsAlone.getD_linesOf`).
-/

namespace Imp32

/-! ## The end of a text -/

section End

variable {p q : Char → Bool} {cs : List Char} {c : Char}

theorem takeWhileEnd_of_all (h : ∀ c ∈ cs, p c = true) : takeWhileEnd p cs = cs :=
  List.rtakeWhile_eq_self_iff.2 h

theorem takeWhileEnd_cons_of_not (h : p c = false) :
    takeWhileEnd p (c :: cs) = takeWhileEnd p cs := by
  induction cs using List.reverseRecOn with
  | nil => simp [takeWhileEnd, h]
  | append_singleton cs d ih =>
    show (c :: cs ++ [d]).rtakeWhile p = (cs ++ [d]).rtakeWhile p
    by_cases hd : p d = true
    · rw [List.rtakeWhile_concat_pos _ _ _ hd, List.rtakeWhile_concat_pos _ _ _ hd]
      exact congrArg (· ++ [d]) ih
    · rw [List.rtakeWhile_concat_neg _ _ _ hd, List.rtakeWhile_concat_neg _ _ _ hd]

/-- Where the end does not reach to the front, it does not matter what stands in front. -/
theorem takeWhileEnd_cons_of_exists (h : ∃ d ∈ cs, p d = false) :
    takeWhileEnd p (c :: cs) = takeWhileEnd p cs := by
  induction cs using List.reverseRecOn with
  | nil => simp at h
  | append_singleton cs d ih =>
    show (c :: cs ++ [d]).rtakeWhile p = (cs ++ [d]).rtakeWhile p
    by_cases hd : p d = true
    · rw [List.rtakeWhile_concat_pos _ _ _ hd, List.rtakeWhile_concat_pos _ _ _ hd]
      obtain ⟨x, hx, hpx⟩ := h
      obtain hx | hx := List.mem_append.1 hx
      · exact congrArg (· ++ [d]) (ih ⟨x, hx, hpx⟩)
      · simp_all
    · rw [List.rtakeWhile_concat_neg _ _ _ hd, List.rtakeWhile_concat_neg _ _ _ hd]

end End

namespace Text

def inLine (c : Char) : Bool := !isLineBreak c

def notFeed (c : Char) : Bool := c ≠ '\n'

/-- The number of complete lines. The pair of a carriage return and a line feed ends one. -/
def completeLines : List Char → Nat
  | [] => 0
  | '\r' :: '\n' :: rest => completeLines rest + 1
  | c :: rest => completeLines rest + if isLineBreak c then 1 else 0

/-- Every line that is complete ends with a line feed, perhaps with a carriage return in front. -/
def FeedsOnly : List Char → Prop
  | [] => True
  | '\r' :: '\n' :: rest => FeedsOnly rest
  | c :: rest => (inLine c = true ∨ c = '\n') ∧ FeedsOnly rest

/-- No character but the line feed ends a line. -/
def FeedsAlone (cs : List Char) : Prop :=
  ∀ c ∈ cs, inLine c = true ∨ c = '\n'

/-- The line that holds the character between the two texts. -/
def lineAround (before : List Char) (c : Char) (after : List Char) : List Char :=
  takeWhileEnd inLine before ++ c :: after.takeWhile inLine

/-! ## Lines by breaks -/

section Breaks

variable {cs : List Char} {c : Char}

theorem completeLines_eq_zero_iff : completeLines cs = 0 ↔ ∀ c ∈ cs, inLine c = true := by
  fun_induction completeLines cs with
  | case1 => simp
  | case2 rest ih =>
    constructor
    · intro h
      omega
    · intro h
      exact absurd (h '\r' List.mem_cons_self) (by decide)
  | case3 c rest hne ih =>
    rw [List.forall_mem_cons, ← ih]
    cases hc : isLineBreak c <;> simp [inLine, hc]

/-- A character that begins no pair ends a line by itself or belongs to the first one. -/
theorem linesOf_cons {rest : List Char} (h : ∀ rest', c = '\r' → rest ≠ '\n' :: rest') :
    linesOf (c :: rest) =
      if isLineBreak c then [] :: linesOf rest else consLine c (linesOf rest) := by
  rw [linesOf.eq_def]
  split
  · simp_all
  · rename_i heq
    obtain ⟨rfl, rfl⟩ := List.cons.inj heq
    exact absurd rfl (h _ rfl)
  · rename_i heq
    obtain ⟨rfl, rfl⟩ := List.cons.inj heq
    rfl

/-- The first line, with a character in front of it. -/
theorem head?_consLine_linesOf (c : Char) (cs : List Char) :
    (consLine c (linesOf cs)).head? = some (c :: cs.takeWhile inLine) := by
  fun_induction linesOf cs generalizing c with
  | case1 => rfl
  | case2 rest ih => rfl
  | case3 d rest hne hd ih => simp [consLine, inLine, hd]
  | case4 d rest hne hd ih =>
    have hhead := ih d
    cases hlines : consLine d (linesOf rest) with
    | nil => simp [hlines] at hhead
    | cons line lines =>
      rw [hlines, List.head?_cons, Option.some.injEq] at hhead
      simp [consLine, inLine, hd, hhead]

theorem linesOf_cons_of_inLine {rest : List Char} (h : inLine c = true) :
    linesOf (c :: rest) = consLine c (linesOf rest) := by
  have hpair : ∀ rest', c = '\r' → rest ≠ '\n' :: rest' := by
    rintro rest' rfl
    exact absurd h (by decide)
  rw [linesOf_cons hpair, if_neg (by simpa [inLine] using h)]

/-- A character in front of a text goes to the first line and leaves the others. -/
theorem getElem?_consLine_zero {lines : List (List Char)} {line : List Char}
    (h : lines[0]? = some line) : (consLine c lines)[0]? = some (c :: line) := by
  cases lines <;> simp_all [consLine]

theorem getD_consLine_zero {lines : List (List Char)} :
    ((consLine c lines)[0]?).getD [] = c :: (lines[0]?).getD [] := by
  cases lines <;> rfl

theorem getElem?_consLine_of_ne_zero {lines : List (List Char)} {n : Nat} (hn : n ≠ 0) :
    (consLine c lines)[n]? = lines[n]? := by
  obtain ⟨n, rfl⟩ := Nat.exists_eq_succ_of_ne_zero hn
  cases lines <;> rfl

/-- The character behind a text is in the line whose number is that of the complete lines. -/
theorem getElem?_linesOf {before after : List Char} (h : inLine c = true) :
    (linesOf (before ++ c :: after))[completeLines before]? = some (lineAround before c after) := by
  fun_induction completeLines before with
  | case1 =>
    rw [List.nil_append, linesOf_cons_of_inLine h, ← List.head?_eq_getElem?,
      head?_consLine_linesOf]
    rfl
  | case2 rest ih =>
    show ([] :: linesOf (rest ++ c :: after))[completeLines rest + 1]? = _
    rw [List.getElem?_cons_succ, ih]
    simp only [lineAround, Option.some.injEq, List.append_cancel_right_eq]
    rw [takeWhileEnd_cons_of_not (by decide), takeWhileEnd_cons_of_not (by decide)]
  | case3 d rest hne ih =>
    -- The pair of breaks is not made by the character behind the text, which is no break.
    have hpair : ∀ rest', d = '\r' → rest ++ c :: after ≠ '\n' :: rest' := by
      rintro rest' rfl hrest
      cases rest with
      | nil =>
        obtain ⟨rfl, -⟩ := List.cons.inj hrest
        exact absurd h (by decide)
      | cons e rest =>
        obtain ⟨rfl, -⟩ := List.cons.inj hrest
        exact hne rest rfl rfl
    rw [List.cons_append, linesOf_cons hpair]
    cases hd : isLineBreak d with
    | true =>
      rw [if_pos rfl, if_pos rfl, List.getElem?_cons_succ, ih]
      simp only [lineAround]
      rw [takeWhileEnd_cons_of_not (by simp [inLine, hd])]
    | false =>
      rw [if_neg (by decide), if_neg (by decide), Nat.add_zero]
      have hd' : inLine d = true := by simp [inLine, hd]
      by_cases hzero : completeLines rest = 0
      · rw [hzero, getElem?_consLine_zero (hzero ▸ ih)]
        have hrest := completeLines_eq_zero_iff.1 hzero
        simp only [lineAround]
        rw [takeWhileEnd_of_all hrest, takeWhileEnd_of_all (List.forall_mem_cons.2 ⟨hd', hrest⟩)]
        rfl
      · have hrest : ∃ e ∈ rest, inLine e = false := by
          simpa using mt completeLines_eq_zero_iff.2 hzero
        rw [getElem?_consLine_of_ne_zero hzero, ih]
        simp only [lineAround]
        rw [takeWhileEnd_cons_of_exists hrest]

end Breaks

/-! ## Texts put together from lines -/

section Together

theorem linesOf_append_feed {line rest : List Char} (h : ∀ c ∈ line, inLine c = true) :
    linesOf (line ++ '\n' :: rest) = line :: linesOf rest := by
  induction line with
  | nil => rfl
  | cons c line ih =>
    obtain ⟨hc, hline⟩ := List.forall_mem_cons.1 h
    rw [List.cons_append, linesOf_cons_of_inLine hc, ih hline]
    rfl

/-- Lines that line feeds end are the lines of the text. -/
theorem linesOf_intercalate {lines : List String} (hne : lines ≠ [])
    (h : ∀ line ∈ lines, ∀ c ∈ line.toList, inLine c = true) :
    linesOf ("\n".intercalate lines ++ "\n").toList = lines.map String.toList := by
  induction lines with
  | nil => exact absurd rfl hne
  | cons line lines ih =>
    obtain ⟨hline, hlines⟩ := List.forall_mem_cons.1 h
    by_cases hrest : lines = []
    · subst hrest
      rw [String.intercalate_singleton, String.toList_append]
      exact linesOf_append_feed hline
    · rw [String.intercalate_cons_of_ne_nil hrest, String.append_assoc, String.append_assoc,
        String.toList_append, String.toList_append, List.map_cons, ← ih hrest hlines]
      exact linesOf_append_feed hline

/-- So are lines that are each ended by a line feed. -/
theorem linesOf_flatMap_feed {lines : List (List Char)}
    (h : ∀ line ∈ lines, ∀ c ∈ line, inLine c = true) :
    linesOf (lines.flatMap (· ++ ['\n'])) = lines := by
  induction lines with
  | nil => rfl
  | cons line lines ih =>
    obtain ⟨hline, hlines⟩ := List.forall_mem_cons.1 h
    rw [List.flatMap_cons, List.append_assoc]
    exact (linesOf_append_feed hline).trans (congrArg (line :: ·) (ih hlines))

end Together

/-! ## Lines by line feeds -/

section Feeds

variable {cs : List Char}

/-- Every line feed ends a line, and nothing else does just if all lines end with one. -/
theorem count_feeds (cs : List Char) :
    cs.count '\n' ≤ completeLines cs ∧ (cs.count '\n' = completeLines cs ↔ FeedsOnly cs) := by
  fun_induction completeLines cs with
  | case1 => simp [FeedsOnly]
  | case2 rest ih =>
    have hcount : ('\r' :: '\n' :: rest).count '\n' = rest.count '\n' + 1 := by simp
    rw [hcount, FeedsOnly.eq_2, ← ih.2]
    omega
  | case3 c rest hne ih =>
    rw [List.count_cons, FeedsOnly.eq_3 _ _ hne, ← ih.2]
    by_cases hc : c = '\n'
    · subst hc
      simpa [isLineBreak] using ih.1
    · cases hb : isLineBreak c
      · simpa [hc, inLine, hb] using ih.1
      · have hle := ih.1
        simp only [inLine, hb, hc, beq_iff_eq, if_true, if_false, Bool.not_true, or_self,
          Bool.false_eq_true, false_and, iff_false]
        omega

theorem count_le_completeLines (cs : List Char) : cs.count '\n' ≤ completeLines cs :=
  (count_feeds cs).1

theorem count_eq_completeLines_iff : cs.count '\n' = completeLines cs ↔ FeedsOnly cs :=
  (count_feeds cs).2

theorem notFeed_of_inLine {c : Char} (h : inLine c = true) : notFeed c = true := by
  unfold notFeed
  rw [decide_eq_true_iff]
  rintro rfl
  exact absurd h (by decide)

/-- Where all lines end with a line feed, the last line begins behind the last line feed. -/
theorem takeWhileEnd_eq_of_feedsOnly (h : FeedsOnly cs) :
    takeWhileEnd inLine cs = takeWhileEnd notFeed cs := by
  fun_induction FeedsOnly cs with
  | case1 => rfl
  | case2 rest ih =>
    rw [takeWhileEnd_cons_of_not (p := inLine) (by decide),
      takeWhileEnd_cons_of_not (p := inLine) (by decide), ih h,
      takeWhileEnd_cons_of_exists (p := notFeed) ⟨'\n', List.mem_cons_self, by decide⟩,
      takeWhileEnd_cons_of_not (p := notFeed) (by decide)]
  | case3 c rest hne ih =>
    obtain ⟨hc, hrest⟩ := h
    by_cases hfeed : c = '\n'
    · subst hfeed
      rw [takeWhileEnd_cons_of_not (p := inLine) (by decide),
        takeWhileEnd_cons_of_not (p := notFeed) (by decide), ih hrest]
    · have hin : inLine c = true := hc.resolve_right hfeed
      have hnot : notFeed c = true := notFeed_of_inLine hin
      by_cases hzero : completeLines rest = 0
      · have hall := completeLines_eq_zero_iff.1 hzero
        have hall' : ∀ d ∈ rest, notFeed d = true := fun d hd => notFeed_of_inLine (hall d hd)
        rw [takeWhileEnd_of_all (List.forall_mem_cons.2 ⟨hin, hall⟩),
          takeWhileEnd_of_all (List.forall_mem_cons.2 ⟨hnot, hall'⟩)]
      · have hmem : '\n' ∈ rest := by
          rw [← List.count_pos_iff, count_eq_completeLines_iff.2 hrest]
          omega
        rw [takeWhileEnd_cons_of_exists ⟨'\n', hmem, by decide⟩,
          takeWhileEnd_cons_of_exists ⟨'\n', hmem, by decide⟩, ih hrest]

theorem FeedsAlone.takeWhile_eq (h : FeedsAlone cs) :
    cs.takeWhile inLine = cs.takeWhile notFeed := by
  induction cs with
  | nil => rfl
  | cons c cs ih =>
    obtain ⟨hc | rfl, hcs⟩ := List.forall_mem_cons.1 h
    · rw [List.takeWhile_cons_of_pos hc, List.takeWhile_cons_of_pos (notFeed_of_inLine hc), ih hcs]
    · rfl

/-- Where line feeds alone end lines, the number of those in front of a place leads to the line
around the place. Behind a last line feed there is no line, but nothing is on it either. -/
theorem FeedsAlone.getD_linesOf {before after : List Char} (h : FeedsAlone (before ++ after)) :
    ((linesOf (before ++ after))[before.count '\n']?).getD [] =
      takeWhileEnd notFeed before ++ after.takeWhile notFeed := by
  induction before with
  | nil =>
    cases after with
    | nil => rfl
    | cons c after =>
      obtain ⟨hc | rfl, hafter⟩ := List.forall_mem_cons.1 h
      · rw [List.nil_append, linesOf_cons_of_inLine hc, List.count_nil, ← List.head?_eq_getElem?,
          head?_consLine_linesOf, FeedsAlone.takeWhile_eq hafter,
          List.takeWhile_cons_of_pos (notFeed_of_inLine hc)]
        rfl
      · rfl
  | cons c before ih =>
    obtain ⟨hc | rfl, hrest⟩ := List.forall_mem_cons.1 h
    · have hnot := notFeed_of_inLine hc
      have hcount : (c :: before).count '\n' = before.count '\n' :=
        List.count_cons_of_ne (of_decide_eq_true hnot)
      rw [List.cons_append, linesOf_cons_of_inLine hc, hcount]
      by_cases hmem : '\n' ∈ before
      · rw [getElem?_consLine_of_ne_zero (List.count_pos_iff.2 hmem).ne', ih hrest,
          takeWhileEnd_cons_of_exists ⟨'\n', hmem, by decide⟩]
      · have hall : ∀ d ∈ before, notFeed d = true := fun d hd =>
          decide_eq_true fun hfeed => hmem (hfeed ▸ hd)
        have hzero := List.count_eq_zero.2 hmem
        rw [hzero, takeWhileEnd_of_all hall] at ih
        rw [hzero, takeWhileEnd_of_all (List.forall_mem_cons.2 ⟨hnot, hall⟩), getD_consLine_zero,
          ih hrest]
        rfl
    · rw [takeWhileEnd_cons_of_not (by decide), ← ih hrest, List.count_cons_self]
      rfl

end Feeds

end Text

end Imp32
