import Imp32.Proofs.Offsets
import Mathlib.Data.List.Forall2

/-!
# Carets

Where line feeds alone end lines, a place is shown with the whole line that holds its start, and in
the row below the columns with a caret are those of the characters of the place on that line, or the
column of its start if there are none (`Document.marks_iff`, `Diagnostic.snippet_offsetOf`).

The line stands behind its number, and the carets behind a margin of a fixed width. The margins are
equally wide just if the number has at most four digits (`Diagnostic.length_gutter_eq_iff`), so that
from line 10000 on the carets stand to the left of the characters they mean
(`Diagnostic.render_points`).
-/

namespace Imp32

open Text

namespace Document

variable {d : Document} {i j k n column : Nat}

/-! ## The line around a place -/

/-- The line around a place between characters. -/
def lineHolding (d : Document) (i : Nat) : List Char :=
  takeWhileEnd notFeed (d.text.toList.take i) ++ (d.text.toList.drop i).takeWhile notFeed

/-- The number of characters between a place and the end of its line. -/
def remaining (d : Document) (i : Nat) : Nat :=
  (d.text.toList.drop i).findIdx fun c => !notFeed c

theorem length_lineHolding (d : Document) (i : Nat) :
    (d.lineHolding i).length + 1 = (d.position (d.offsetOf i)).column + d.remaining i := by
  rw [position_offsetOf, lineHolding, List.length_append, List.takeWhile_eq_take_findIdx_not,
    List.length_take, Nat.min_eq_left List.findIdx_le_length, Nat.add_right_comm]
  rfl

theorem lineAt_position (h : FeedsAlone d.text.toList) (i : Nat) :
    d.lineAt (d.position (d.offsetOf i)).line = String.ofList (d.lineHolding i) := by
  have hsplit : FeedsAlone (d.text.toList.take i ++ d.text.toList.drop i) := by
    rwa [List.take_append_drop]
  have hline := hsplit.getD_linesOf
  rw [List.take_append_drop] at hline
  have hnumber : ((((d.text.toList.take i).count '\n' + 1 : Nat) : Int) - 1).toNat =
      (d.text.toList.take i).count '\n' := by omega
  rw [position_offsetOf, lineHolding, ← hline]
  unfold lineAt lines
  dsimp only
  rw [if_pos (by omega), List.getElem?_map, hnumber]
  cases (linesOf d.text.toList)[(d.text.toList.take i).count '\n']? <;> rfl

theorem getElem?_of_lt_remaining (h : k < d.remaining i) :
    ∃ c, d.text.toList[i + k]? = some c ∧ c ≠ '\n' := by
  have hlength : k < (d.text.toList.drop i).length :=
    Nat.lt_of_lt_of_le h List.findIdx_le_length
  have hfeed := List.not_of_lt_findIdx h
  refine ⟨_, List.getElem?_drop ▸ List.getElem?_eq_getElem hlength, ?_⟩
  simpa [notFeed] using hfeed

/-- A line feed ends the line, unless the text ends. -/
theorem getElem?_remaining (h : i + d.remaining i < d.text.toList.length) :
    d.text.toList[i + d.remaining i]? = some '\n' := by
  have hlength : d.remaining i < (d.text.toList.drop i).length := by
    rw [List.length_drop]
    omega
  have hget : (d.text.toList.drop i)[d.remaining i]? = some _ := List.getElem?_eq_getElem hlength
  have hfeed := List.findIdx_of_getElem?_eq_some hget
  rw [← List.getElem?_drop, hget, Option.some.injEq]
  simpa only [notFeed, ne_eq, decide_not, Bool.not_not, decide_eq_true_eq] using hfeed

/-- Up to the end of the line, the column counts the characters. -/
theorem position_add (h : n ≤ d.remaining i) : d.position (d.offsetOf (i + n)) =
    ⟨(d.position (d.offsetOf i)).line, (d.position (d.offsetOf i)).column + n⟩ := by
  induction n with
  | zero => rfl
  | succ n ih =>
    obtain ⟨c, hc, hfeed⟩ := getElem?_of_lt_remaining h
    rw [← Nat.add_assoc, position_succ hc, if_neg hfeed, ih (Nat.le_of_succ_le h)]
    rfl

/-- The line goes on up to the line feed that ends it. -/
theorem line_eq_iff (hik : i ≤ k) (hk : k ≤ d.text.toList.length) :
    (d.position (d.offsetOf k)).line = (d.position (d.offsetOf i)).line ↔
      k ≤ i + d.remaining i := by
  constructor
  · intro hline
    by_contra hlt
    have hfeed := getElem?_remaining (d := d) (i := i) (by omega)
    have hnext := position_succ hfeed
    rw [if_pos rfl, position_add (Nat.le_refl _)] at hnext
    obtain heq | hlt := Nat.eq_or_lt_of_le (Nat.succ_le_of_lt (Nat.not_le.1 hlt))
    · rw [← heq, hnext] at hline
      exact absurd hline (Nat.succ_ne_self _)
    · have hbefore := before_of_lt hlt hk
      rw [hnext] at hbefore
      unfold Position.Before at hbefore
      dsimp only at hbefore
      omega
  · intro hle
    obtain ⟨n, rfl⟩ := Nat.exists_eq_add_of_le hik
    rw [position_add (by omega)]

/-! ## The characters of a place on its first line -/

/-- The character is in the place with these ends and stands, before the line feed, on the line
where the place starts. -/
structure OnFirstLine (d : Document) (i j k : Nat) : Prop where
  inside : i ≤ k ∧ k < j
  char : ∃ c, d.text.toList[k]? = some c ∧ c ≠ '\n'
  line : (d.position (d.offsetOf k)).line = (d.position (d.offsetOf i)).line

theorem onFirstLine_iff (hj : j ≤ d.text.toList.length) :
    d.OnFirstLine i j k ↔ i ≤ k ∧ k < i + min (j - i) (d.remaining i) := by
  constructor
  · rintro ⟨⟨hik, hkj⟩, ⟨c, hc, hfeed⟩, hline⟩
    have hle := (line_eq_iff hik (by omega)).1 hline
    have hne : k ≠ i + d.remaining i := by
      rintro rfl
      rw [getElem?_remaining (by omega)] at hc
      exact hfeed (Option.some.inj hc).symm
    omega
  · rintro ⟨hik, hk⟩
    have hchar : ∃ c, d.text.toList[i + (k - i)]? = some c ∧ c ≠ '\n' :=
      getElem?_of_lt_remaining (by omega)
    rw [Nat.add_sub_cancel' hik] at hchar
    exact ⟨⟨hik, by omega⟩, hchar, (line_eq_iff hik (by omega)).2 (by omega)⟩

/-- The columns that stand for a place on its first line: those of its characters there or, if there
are none, that of its start. -/
def Marks (d : Document) (i j column : Nat) : Prop :=
  (∃ k, d.OnFirstLine i j k ∧ column = (d.position (d.offsetOf k)).column) ∨
    (∀ k, ¬d.OnFirstLine i j k) ∧ column = (d.position (d.offsetOf i)).column

def markWidth (d : Document) (i j : Nat) : Nat :=
  max 1 (min (j - i) (d.remaining i))

theorem one_le_markWidth (d : Document) (i j : Nat) : 1 ≤ d.markWidth i j :=
  Nat.le_max_left _ _

theorem markWidth_le (d : Document) (i j : Nat) : d.markWidth i j ≤ d.remaining i + 1 := by
  unfold markWidth
  omega

/-- The columns follow one another. -/
theorem marks_iff (hj : j ≤ d.text.toList.length) : d.Marks i j column ↔
    (d.position (d.offsetOf i)).column ≤ column ∧
      column < (d.position (d.offsetOf i)).column + d.markWidth i j := by
  unfold Marks markWidth
  simp only [onFirstLine_iff hj]
  constructor
  · rintro (⟨k, ⟨hik, hk⟩, rfl⟩ | ⟨hnone, rfl⟩)
    · obtain ⟨n, rfl⟩ := Nat.exists_eq_add_of_le hik
      rw [position_add (by omega)]
      dsimp only
      omega
    · omega
  · rintro ⟨hlow, hhigh⟩
    by_cases hnone : min (j - i) (d.remaining i) = 0
    · exact .inr ⟨by omega, by omega⟩
    · obtain ⟨n, rfl⟩ := Nat.exists_eq_add_of_le hlow
      refine .inl ⟨i + n, ⟨Nat.le_add_right _ _, by omega⟩, ?_⟩
      rw [position_add (by omega)]

end Document

namespace Diagnostic

variable {d : Document} {i j : Nat}

/-! ## Snippets -/

/-- A snippet shows the line around the start, with as many carets as there are columns to mark. -/
theorem snippet_offsetOf (h : FeedsAlone d.text.toList) (hij : i ≤ j)
    (hj : j ≤ d.text.toList.length) : snippet d ⟨d.offsetOf i, d.offsetOf j⟩ =
      ⟨d.position (d.offsetOf i), String.ofList (d.lineHolding i), d.markWidth i j⟩ := by
  have hlength := d.length_lineHolding i
  unfold snippet Document.markWidth
  dsimp only
  rw [Document.lineAt_position h, String.length_ofList]
  by_cases hline : (d.position (d.offsetOf i)).line = (d.position (d.offsetOf j)).line
  · have hle := (Document.line_eq_iff hij hj).1 hline.symm
    obtain ⟨n, rfl⟩ := Nat.exists_eq_add_of_le hij
    have hcolumn := Document.position_add (d := d) (i := i) (n := n) (by omega)
    rw [if_pos hline, hcolumn]
    congr 2
    dsimp only
    omega
  · have hlt := mt (Document.line_eq_iff hij hj).2 (Ne.symm hline)
    rw [if_neg hline]
    congr 2
    omega

/-! ## Rows -/

theorem toList_repeated (c : Char) (n : Nat) : (repeated c n).toList = List.replicate n c :=
  String.toList_ofList

theorem length_gutter (n : Nat) : (gutter n).length = max 4 (toString n).length := by
  unfold gutter
  rw [String.length_append, ← String.length_toList, toList_repeated, List.length_replicate]
  omega

/-- A number of more than four digits widens the gutter. -/
theorem length_gutter_eq_iff {n : Nat} : (gutter n).length = 4 ↔ n < 10000 := by
  have hdigits : (toString n).length ≤ 4 ↔ n < 10 ^ 4 := by
    rw [← Nat.length_toDigits_le_iff (by decide) (by decide), Nat.toString_eq_repr, Nat.repr,
      String.length_ofList]
  rw [length_gutter, show 10000 = 10 ^ 4 from rfl, ← hdigits]
  omega

def framed (margin text : String) : String :=
  "  " ++ margin ++ " | " ++ text

/-- Carets behind blanks. -/
def underline (padding width : Nat) : String :=
  repeated ' ' padding ++ repeated '^' width

/-- Without colours, the line of a place and the row below stand behind margins. -/
theorem exists_placeLines (severity : Severity) (d : Document) (place : Mark) :
    ∃ arrow bar message, placeLines .plain severity d place =
      arrow :: bar ::
        framed (gutter (snippet d place.span).position.line) (snippet d place.span).line ::
        framed "    " (underline ((snippet d place.span).position.column - 1)
          (snippet d place.span).width) :: message := by
  have hmark : Palette.plain.ofSeverity severity = "" := by cases severity <;> rfl
  have hline (number text : String) :
      s!"  {Palette.plain.frame}{number} |{Palette.plain.reset} {text}" = framed number text := by
    unfold framed
    rw [show " | " = " |" ++ " " from rfl]
    simp [Palette.plain, toString, String.append_assoc]
  have hcarets (padding mark carets reset : String) (hmark : mark = "") (hreset : reset = "") :
      s!"  {Palette.plain.frame}     |{reset} {padding}{mark}{carets}{reset}" =
        framed "    " (padding ++ carets) := by
    unfold framed
    rw [hmark, hreset, show "  " ++ "    " ++ " | " = "  " ++ "     |" ++ " " by decide]
    simp [Palette.plain, toString, String.append_assoc]
  unfold placeLines
  dsimp only
  rw [hline, hcarets _ _ _ Palette.plain.reset hmark rfl]
  split
  · exact ⟨_, _, [], rfl⟩
  · exact ⟨_, _, [_], rfl⟩

theorem getElem?_append_carets {blank : List Char} (h : '^' ∉ blank) {width k : Nat} :
    (blank ++ List.replicate width '^')[k]? = some '^' ↔
      blank.length ≤ k ∧ k < blank.length + width := by
  obtain hlt | hle := Nat.lt_or_ge k blank.length
  · rw [List.getElem?_append_left hlt]
    constructor
    · intro hget
      exact absurd (List.mem_of_getElem? hget) h
    · omega
  · rw [List.getElem?_append_right hle, List.getElem?_replicate]
    simp only [Option.ite_none_right_eq_some, and_true]
    omega

/-! ## The line of a place and the carets below -/

/-- The carets stand below the columns of the place in the row that shows its line. -/
def Aligned (d : Document) (i j : Nat) (below : String) : Prop :=
  ∀ k, below.toList[k]? = some '^' ↔ ∃ column, d.Marks i j column ∧
    k + 1 = (framed (gutter (d.position (d.offsetOf i)).line) "").length + column

/-- A row shows the line of a place, and the row below underlines the place. -/
structure Underlined (d : Document) (i j : Nat) (row below : String) : Prop where
  /-- The row shows the line that holds the start, behind its number. -/
  line : row = framed (gutter (d.position (d.offsetOf i)).line) (String.ofList (d.lineHolding i))
  /-- Behind a margin, the row below has carets in the columns of the place and is blank
  otherwise. -/
  carets : ∃ underline, below = framed "    " underline ∧
    (∀ c ∈ underline.toList, c = ' ' ∨ c = '^') ∧
      ∀ k, underline.toList[k]? = some '^' ↔ d.Marks i j (k + 1)
  /-- No caret stands further right than one column behind the end of the line. -/
  within : ∀ column, d.Marks i j column → 1 ≤ column ∧ column ≤ (d.lineHolding i).length + 1
  aligned : Aligned d i j below ↔ (d.position (d.offsetOf i)).line < 10000

/-- Two of the lines that show a place are its line and the carets below. -/
def Points (d : Document) (i j : Nat) (block : List String) : Prop :=
  ∃ arrow bar row below message, block = arrow :: bar :: row :: below :: message ∧
    Underlined d i j row below

section Rows

variable {padding width k : Nat}

theorem toList_underline : (underline padding width).toList =
    List.replicate padding ' ' ++ List.replicate width '^' := by
  rw [underline, String.toList_append, toList_repeated, toList_repeated]

theorem getElem?_underline :
    (underline padding width).toList[k]? = some '^' ↔ padding ≤ k ∧ k < padding + width := by
  rw [toList_underline, getElem?_append_carets (by simp), List.length_replicate]

theorem getElem?_framed_underline :
    (framed "    " (underline padding width)).toList[k]? = some '^' ↔
      9 + padding ≤ k ∧ k < 9 + padding + width := by
  have hrow : (framed "    " (underline padding width)).toList =
      ("       | ".toList ++ List.replicate padding ' ') ++ List.replicate width '^' := by
    simp [framed, toList_underline]
  rw [hrow, getElem?_append_carets (by simp), List.length_append, List.length_replicate]
  rfl

end Rows

theorem aligned_iff (hj : j ≤ d.text.toList.length) :
    Aligned d i j
        (framed "    " (underline ((d.position (d.offsetOf i)).column - 1) (d.markWidth i j))) ↔
      (d.position (d.offsetOf i)).line < 10000 := by
  have hcolumn := (d.one_le_position (d.offsetOf i)).2
  have hwidth := d.one_le_markWidth i j
  have hgutter := length_gutter (d.position (d.offsetOf i)).line
  have hmargin : (framed (gutter (d.position (d.offsetOf i)).line) "").length =
      5 + (gutter (d.position (d.offsetOf i)).line).length := by
    unfold framed
    simp only [String.length_append]
    show 2 + _ + 3 + 0 = _
    omega
  unfold Aligned
  simp only [getElem?_framed_underline, Document.marks_iff hj, ← length_gutter_eq_iff, hmargin]
  constructor
  · intro h
    -- the first caret stands below the first column of the place, if it stands below any
    obtain ⟨column, hmarks, hk⟩ :=
      (h (9 + ((d.position (d.offsetOf i)).column - 1))).1 ⟨Nat.le_refl _, by omega⟩
    omega
  · intro hfits k
    constructor
    · intro hk
      exact ⟨k - 8, by omega, by omega⟩
    · rintro ⟨column, hmarks, hk⟩
      omega

theorem underlined (hj : j ≤ d.text.toList.length) : Underlined d i j
    (framed (gutter (d.position (d.offsetOf i)).line) (String.ofList (d.lineHolding i)))
    (framed "    " (underline ((d.position (d.offsetOf i)).column - 1) (d.markWidth i j))) := by
  have hcolumn := (d.one_le_position (d.offsetOf i)).2
  have hlength := d.length_lineHolding i
  have hwidth := d.markWidth_le i j
  refine ⟨rfl, ⟨_, rfl, ?_, fun k => ?_⟩, fun column hmarks => ?_, aligned_iff hj⟩
  · intro c hc
    rw [toList_underline, List.mem_append] at hc
    exact hc.imp List.eq_of_mem_replicate List.eq_of_mem_replicate
  · rw [getElem?_underline, Document.marks_iff hj]
    omega
  · rw [Document.marks_iff hj] at hmarks
    omega

theorem points_placeLines (h : FeedsAlone d.text.toList) (hij : i ≤ j)
    (hj : j ≤ d.text.toList.length) (severity : Severity) {place : Mark}
    (hspan : place.span = ⟨d.offsetOf i, d.offsetOf j⟩) :
    Points d i j (placeLines .plain severity d place) := by
  obtain ⟨arrow, bar, message, hlines⟩ := exists_placeLines severity d place
  rw [hspan, snippet_offsetOf h hij hj] at hlines
  exact ⟨arrow, bar, _, _, message, hlines, underlined hj⟩

theorem renderLines_plain (diagnostic : Diagnostic) (d : Document) :
    renderLines .plain diagnostic d =
      s!"{diagnostic.severity.name}[{diagnostic.code}]: {diagnostic.message}" ::
        (((diagnostic.places d).map (placeLines .plain diagnostic.severity d)).flatten ++
          diagnostic.notes.map fun note => s!"  = note: {note}") := by
  have hmark : Palette.plain.ofSeverity diagnostic.severity = "" := by
    cases diagnostic.severity <;> rfl
  have hheading (message : String) : "]" ++ (": " ++ message) = "]: " ++ message := by
    rw [← String.append_assoc]
    rfl
  unfold renderLines
  dsimp only
  rw [hmark, List.flatMap_def]
  simp [Palette.plain, toString, String.append_assoc, hheading]

/-- Where line feeds alone end lines, every place of a diagnostic is shown with the line of its
start, and the columns of the place are underlined; without a place, the end of the text is. The
carets stand below these columns up to line 9999, and to the left of them from line 10000 on. -/
theorem render_points {diagnostic : Diagnostic} (hfeeds : FeedsAlone d.text.toList)
    (hmarks : ∀ mark ∈ diagnostic.marks, mark.span.start ≤ mark.span.stop ∧ d.Bounds mark.span) :
    ∃ blocks, diagnostic.render false d = "\n".intercalate
        (s!"{diagnostic.severity.name}[{diagnostic.code}]: {diagnostic.message}" ::
          (blocks.flatten ++ diagnostic.notes.map fun note => s!"  = note: {note}")) ∧
      (diagnostic.marks ≠ [] → List.Forall₂ (fun mark block => ∃ i j, i ≤ j ∧
        j ≤ d.text.toList.length ∧ mark.span = ⟨d.offsetOf i, d.offsetOf j⟩ ∧ Points d i j block)
          diagnostic.marks blocks) ∧
      (diagnostic.marks = [] → ∃ block, blocks = [block] ∧
        Points d d.text.toList.length d.text.toList.length block) := by
  refine ⟨(diagnostic.places d).map (placeLines .plain diagnostic.severity d),
    congrArg _ (renderLines_plain diagnostic d), ?_, ?_⟩
  · intro hne
    have hplaces : diagnostic.places d = diagnostic.marks :=
      if_neg (mt List.isEmpty_iff.1 hne)
    rw [hplaces, List.forall₂_map_right_iff, List.forall₂_same]
    intro mark hmark
    obtain ⟨hle, hbounds⟩ := hmarks mark hmark
    obtain ⟨i, j, hij, hj, hspan⟩ := hbounds.exists_offsetOf hle
    exact ⟨i, j, hij, hj, hspan, points_placeLines hfeeds hij hj _ hspan⟩
  · intro hnil
    have hplaces : diagnostic.places d = [⟨d.endSpan, ""⟩] := if_pos (List.isEmpty_iff.2 hnil)
    rw [hplaces]
    refine ⟨_, rfl, points_placeLines hfeeds (Nat.le_refl _) (Nat.le_refl _) _ ?_⟩
    rw [Document.offsetOf_length]
    rfl

/-- A text whose line 10000 holds a character, and the others nothing. -/
def tall : Document := ⟨String.ofList (List.replicate 9999 '\n' ++ ['x']), Document.defaultName⟩

def tallError : Diagnostic := ⟨.error, "E101", "m", [⟨⟨9999, 10000⟩, ""⟩], []⟩

theorem utf8Length_replicate_lineFeed (n : Nat) : utf8Length (List.replicate n '\n') = n := by
  induction n with
  | zero => rfl
  | succ n ih => rw [List.replicate_succ, utf8Length, ih, Nat.add_comm]; rfl

/-- The caret does not stand below the character. -/
theorem render_points_tall : FeedsAlone tall.text.toList ∧
    (∀ mark ∈ tallError.marks, mark.span.start ≤ mark.span.stop ∧ tall.Bounds mark.span) ∧
    ∃ arrow bar row below message, tallError.render false tall = "\n".intercalate
        ("error[E101]: m" :: (arrow :: bar :: row :: below :: message)) ∧
      ∃ i j, tall.offsetOf i = 9999 ∧ tall.offsetOf j = 10000 ∧ Underlined tall i j row below ∧
        ¬Aligned tall i j below := by
  have htext : tall.text.toList = List.replicate 9999 '\n' ++ ['x'] := String.toList_ofList
  have hfeeds : FeedsAlone tall.text.toList := by
    rw [htext]
    intro c hc
    obtain hc | hc := List.mem_append.1 hc
    · exact .inr (List.eq_of_mem_replicate hc)
    · exact .inl (List.mem_singleton.1 hc ▸ by decide)
  have hstart := utf8Length_replicate_lineFeed 9999
  have hmarks : ∀ mark ∈ tallError.marks, mark.span.start ≤ mark.span.stop ∧
      tall.Bounds mark.span := by
    intro mark hmark
    obtain rfl := List.mem_singleton.1 hmark
    refine ⟨by decide, ⟨_, _, htext, by rw [hstart]; rfl⟩, ⟨_, [], (List.append_nil _).symm, ?_⟩⟩
    rw [htext, utf8Length_append, hstart]
    rfl
  obtain ⟨blocks, hrender, hshown, -⟩ := render_points hfeeds hmarks
  cases hshown (List.cons_ne_nil _ _) with
  | cons hblock hnil =>
    cases hnil
    obtain ⟨i, j, -, -, hspan, arrow, bar, row, below, message, rfl, hunderlined⟩ := hblock
    obtain ⟨hi, hj⟩ := Span.mk.inj hspan
    refine ⟨hfeeds, hmarks, arrow, bar, row, below, message, ?_, i, j, by omega, by omega,
      hunderlined, ?_⟩
    · rw [hrender, List.flatten_singleton, tallError, List.map_nil, List.append_nil]
      rfl
    · have hposition := Document.position_utf8Length htext
      rw [hstart, List.count_replicate_self] at hposition
      have hline : (tall.position 9999).line = 10000 := congrArg Position.line hposition
      rw [hunderlined.aligned, ← hi, hline]
      exact Nat.lt_irrefl _

end Diagnostic

end Imp32
