import Imp32.Proofs.Highlighting.Pieces
import Imp32.Proofs.Joining.Tokens
import Imp32.Proofs.Spans.Texts

/-!
# Pieces and tokens

The pieces of a text are cut where the scanner cuts. One step of the scanner is a piece for the
blanks and one for the token (`piecesBehind_of_cuts`), so on its way from one place to another the
pieces between blanks have the texts of the tokens (`exists_piecesRead`). At its end only blanks
are left, and where it finds no token the first error stands (`splits`).
-/

namespace Imp32.Highlight

open Scanner

def shown (ps : List Piece) : List Piece :=
  ps.filter (·.kind ≠ .blank)

/-- The number of characters in front of the first error. -/
def firstError? (cs : List Char) : Option Nat :=
  ((locate 0 (pieces cs)).find? (·.2.kind = .error)).map Prod.fst

/-! ## One step of the scanner -/

section Step

variable {before : Option Char} {s s' : Scanner} {ws xs : List Char} {t : Token}

theorem kindBetween_ne (before : Option Char) (rest : List Char) (l : Lexeme) :
    kindBetween before rest l ≠ .blank ∧ kindBetween before rest l ≠ .error := by
  unfold kindBetween
  split
  · exact ⟨nofun, nofun⟩
  · cases l <;> exact ⟨nofun, nofun⟩

/-- A token behind blanks is a piece behind a piece of blanks. -/
theorem piecesBehind_of_cuts (h : Cuts s ws xs t s') :
    piecesBehind before s.rest =
      blankPieces ws ++ ⟨kindBetween (ws.getLast?.or before) s'.rest t.lexeme, xs⟩ ::
        piecesBehind xs.getLast? s'.rest := by
  obtain ⟨first, tail, rfl, hblank, -⟩ := takes_of_spelledBy h.spelled h.ends h.taken
  have hfirst : ∀ c ∈ (first :: tail ++ s'.rest).head?, Text.isBlank c = false := by
    rintro c ⟨⟩
    exact hblank
  rw [h.rest, piecesBehind_blanks h.blanks hfirst, List.cons_append,
    piecesBehind_cons (firstPiece_of_spelledBy h.spelled h.ends) rfl]

theorem mem_blankPieces {p : Piece} (h : p ∈ blankPieces ws) : p.kind = .blank := by
  unfold blankPieces at h
  split at h
  · cases h
  · rw [List.mem_singleton.1 h]

theorem shown_blankPieces (ws : List Char) : shown (blankPieces ws) = [] :=
  List.filter_eq_nil_iff.2 fun p hp => by simp [mem_blankPieces hp]

theorem noError_blankPieces (ws : List Char) : ∀ p ∈ blankPieces ws, p.kind ≠ .error := by
  intro p hp
  rw [mem_blankPieces hp]
  nofun

theorem flatMap_blankPieces (ws : List Char) : (blankPieces ws).flatMap Piece.text = ws := by
  unfold blankPieces
  split <;> simp [*]

/-- Blanks are not shown. -/
theorem shown_blanks_cons {p : Piece} {ps : List Piece} (hp : p.kind ≠ .blank) :
    shown (blankPieces ws ++ p :: ps) = p :: shown ps := by
  rw [shown, List.filter_append, ← shown, shown_blankPieces, List.nil_append,
    List.filter_cons_of_pos (by simp [hp]), shown]

/-- At the end there is nothing but blanks. -/
theorem piecesBehind_of_atEnd (h : s.AtEnd) : piecesBehind before s.rest = blankPieces s.rest := by
  have hall : piecesBehind before (s.rest ++ []) = blankPieces s.rest ++ [] :=
    piecesBehind_blanks h.isBlank nofun
  rwa [List.append_nil, List.append_nil] at hall

end Step

/-! ## A run of the scanner -/

/-- What the pieces from one place of the scanner to another are: the characters that it passes,
none of them an error, and the tokens' texts between the blanks. -/
structure PiecesRead (d : Document) (s : Scanner) (ts : List Token) (s' : Scanner)
    (read : List Piece) : Prop where
  rest : s.rest = read.flatMap Piece.text ++ s'.rest
  noError : ∀ p ∈ read, p.kind ≠ .error
  texts : (shown read).map (fun p => String.ofList p.text) = ts.map (fun t => d.textAt t.span)

section Run

variable {d : Document} {s s' : Scanner} {ts : List Token}

/-- One token is read as the pieces of the blanks and of its text. -/
theorem PiecesRead.cons {s₁ : Scanner} {ws xs : List Char} {t : Token} {read : List Piece}
    {kind : PieceKind} (hs : StandsIn d.text.toList s) (hcut : Cuts s ws xs t s₁)
    (hkind : kind ≠ .blank ∧ kind ≠ .error) (h : PiecesRead d s₁ ts s' read) :
    PiecesRead d s (t :: ts) s' (blankPieces ws ++ ⟨kind, xs⟩ :: read) where
  rest := by
    rw [List.flatMap_append, flatMap_blankPieces, List.flatMap_cons, hcut.rest, h.rest]
    simp only [List.append_assoc]
  noError := List.forall_mem_append.2
    ⟨noError_blankPieces ws, List.forall_mem_cons.2 ⟨hkind.2, h.noError⟩⟩
  texts := by
    rw [shown_blanks_cons hkind.1, List.map_cons, List.map_cons, h.texts, hcut.span,
      hs.textAt hcut.rest]

/-- On its way the scanner reads the tokens that the pieces show. -/
theorem exists_piecesRead (h : Scans s ts s') :
    ∀ before, StandsIn d.text.toList s → ∃ read before',
      piecesBehind before s.rest = read ++ piecesBehind before' s'.rest ∧
        PiecesRead d s ts s' read := by
  induction h with
  | refl s => exact fun before _ => ⟨[], before, rfl, rfl, nofun, rfl⟩
  | @step s s₁ s' t ts hnext _ ih =>
    intro before hs
    obtain ⟨ws, xs, hcut⟩ := exists_cuts hnext
    obtain ⟨read, before', hread, hpieces⟩ := ih xs.getLast? (hs.next hnext).1
    refine ⟨_, before', ?_, .cons hs hcut (kindBetween_ne (ws.getLast?.or before) s₁.rest t.lexeme)
      hpieces⟩
    rw [piecesBehind_of_cuts hcut, hread, List.append_assoc, List.cons_append]

/-- The first error is found behind pieces without one. -/
theorem find?_locate {read more : List Piece} {p : Piece} (hread : ∀ q ∈ read, q.kind ≠ .error)
    (hp : p.kind = .error) : ∀ index, (locate index (read ++ p :: more)).find? (·.2.kind = .error) =
      some (index + (read.flatMap Piece.text).length, p) := by
  induction read with
  | nil =>
    intro index
    rw [List.nil_append, locate, List.find?_cons_of_pos (by simp [hp])]
    rfl
  | cons q read ih =>
    intro index
    rw [List.cons_append, locate, List.find?_cons_of_neg (by simp [hread q List.mem_cons_self]),
      ih fun r hr => hread r (List.mem_cons_of_mem q hr), List.flatMap_cons, List.length_append,
      Nat.add_assoc]

/-- Where the scanner finds no token stands an error, behind blanks. -/
theorem piecesBehind_of_invalid {text : String} {span : Span} (before : Option Char)
    (h : s.next = .error (.invalidToken text span) s') :
    ∃ ws first more, piecesBehind before s.rest = blankPieces ws ++ ⟨.error, [first]⟩ :: more ∧
      s.rest.takeWhile Text.isBlank = ws ∧ span.start = s.offset + Text.utf8Length ws := by
  obtain ⟨first, rest, hrest, hspelled, -⟩ := next_eq_error.1 h
  have hblank := (dropWhile_eq_cons hrest).1
  have hspan := span_of_spelled hspelled _ rfl
  obtain rfl : span = _ := Option.some.inj hspan
  refine ⟨_, first, piecesBehind [first].getLast? rest, ?_, rfl, rfl⟩
  conv =>
    lhs
    rw [← List.takeWhile_append_dropWhile (p := Text.isBlank) (l := s.rest), hrest]
  have hcons : piecesBehind ((s.rest.takeWhile Text.isBlank).getLast?.or before) (first :: rest) =
      ⟨.error, [first]⟩ :: piecesBehind [first].getLast? rest :=
    piecesBehind_cons (show firstPiece _ first ([] ++ rest) = _ from
      firstPiece_of_invalid hblank hspelled) rfl
  rw [piecesBehind_blanks (fun c hc => List.all_eq_true.1 List.all_takeWhile c hc)
    (by rintro c ⟨⟩; exact hblank), hcons]

end Run

/-! ## Texts -/

/-- How a text is cut into pieces, compared with its tokens. -/
structure Splits (d : Document) : Prop where
  /-- The pieces, put together, are the text. -/
  joins : (pieces d.text.toList).flatMap Piece.text = d.text.toList
  /-- Where the scanner gets to the end, no piece is an error, and those between blanks are the
  texts of the tokens. -/
  shows : ∀ ts, tokens d.text = .ok ts →
    (∀ p ∈ pieces d.text.toList, p.kind ≠ .error) ∧
      (shown (pieces d.text.toList)).map (fun p => String.ofList p.text) =
        ts.map (fun t => d.textAt t.span)
  /-- Where the scanner stops at what is no token stands the first error. -/
  stops : ∀ text span, tokens d.text = .error (.invalidToken text span) →
    ∃ before after, d.text.toList = before ++ after ∧ span.start = Text.utf8Length before ∧
      firstError? d.text.toList = some before.length

/-- A text is cut into pieces where it is cut into tokens. -/
theorem splits (d : Document) : Splits d where
  joins := flatMap_piecesBehind _ none
  shows ts h := by
    obtain ⟨s, hscans, hend⟩ := tokens_eq_ok.1 h
    obtain ⟨read, before, hread, hpieces⟩ :=
      exists_piecesRead hscans none (standsIn_start d.text.toList)
    have hall : pieces d.text.toList = read ++ blankPieces s.rest :=
      hread.trans (congrArg (read ++ ·) (piecesBehind_of_atEnd hend))
    rw [hall]
    refine ⟨List.forall_mem_append.2 ⟨hpieces.noError, noError_blankPieces s.rest⟩, ?_⟩
    rw [shown, List.filter_append, ← shown, ← shown, shown_blankPieces, List.append_nil,
      hpieces.texts]
  stops text span h := by
    obtain ⟨ts, s, hscans, after, hnext⟩ := tokens_eq_error.1 h
    obtain ⟨read, before, hread, hpieces⟩ :=
      exists_piecesRead hscans none (standsIn_start d.text.toList)
    obtain ⟨front, hfront, hoffset⟩ := (hscans.standsIn (standsIn_start d.text.toList)).1
    obtain ⟨ws, first, more, herror, hws, hstart⟩ := piecesBehind_of_invalid before hnext
    have hpassed : front = read.flatMap Piece.text :=
      List.append_cancel_right (hfront.symm.trans hpieces.rest)
    refine ⟨front ++ ws, s.rest.dropWhile Text.isBlank, ?_, ?_, ?_⟩
    · rw [List.append_assoc, ← hws, List.takeWhile_append_dropWhile, ← hfront]
    · rw [hstart, Text.utf8Length_append, hoffset, Int.natCast_add]
    · have hall : pieces d.text.toList = (read ++ blankPieces ws) ++ ⟨.error, [first]⟩ :: more := by
        rw [List.append_assoc, ← herror]
        exact hread
      have hnone : ∀ p ∈ read ++ blankPieces ws, p.kind ≠ .error :=
        List.forall_mem_append.2 ⟨hpieces.noError, noError_blankPieces ws⟩
      rw [firstError?, hall, find?_locate hnone rfl, List.flatMap_append, flatMap_blankPieces,
        ← hpassed, Nat.zero_add]
      rfl

end Imp32.Highlight
