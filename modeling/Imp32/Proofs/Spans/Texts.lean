import Imp32.Document
import Imp32.Proofs.Joining.Tokens
import Imp32.Proofs.Spans.Trees
import Imp32.Proofs.Text.Decoding

/-!
# The text under a span

A span that begins and ends between characters covers the characters between its ends
(`Document.textAt_eq`). So the text under the span of a token is what the scanner cut off for it
(`Scanner.StandsIn.textAt`), and the text from one token to another, read by itself, has these
tokens, moved to its own beginning (`tokens_textAt`).
-/

namespace Imp32

section TextAt

variable {d : Document} {before xs after : List Char}

/-- A span from one place between characters to another covers the characters between them. -/
theorem Document.textAt_eq (h : d.text.toList = before ++ (xs ++ after)) :
    d.textAt ⟨Text.utf8Length before, Text.utf8Length (before ++ xs)⟩ = String.ofList xs := by
  have hbytes : d.bytes = Text.utf8 before ++ (Text.utf8 xs ++ Text.utf8 after) := by
    unfold bytes
    rw [h, Text.utf8_append, Text.utf8_append]
  have hoffset : ∀ n : Nat, fromEnd d.size n = n := fun n => by
    unfold fromEnd
    rw [if_neg (Int.not_lt.2 (Int.natCast_nonneg n)), Int.toNat_natCast]
  have htake : d.bytes.take (Text.utf8Length (before ++ xs)) =
      Text.utf8 before ++ Text.utf8 xs := by
    rw [hbytes, ← List.append_assoc, ← Text.utf8_append, List.take_left' (Text.length_utf8 _),
      Text.utf8_append]
  unfold textAt
  dsimp only
  rw [hoffset, hoffset, htake, List.drop_left' (Text.length_utf8 _), Text.decodeLossy_utf8]

namespace Scanner

/-- The text of a piece behind blanks. -/
theorem StandsIn.textAt {s : Scanner} {ws : List Char} (h : StandsIn d.text.toList s)
    (hrest : s.rest = ws ++ (xs ++ after)) : d.textAt (s.pieceSpan ws xs) = String.ofList xs := by
  obtain ⟨before, hcs, hoffset⟩ := h
  have htext : d.text.toList = (before ++ ws) ++ (xs ++ after) := by
    rw [hcs, hrest, List.append_assoc]
  rw [← Document.textAt_eq htext]
  unfold Scanner.pieceSpan
  simp only [Text.utf8Length_append, hoffset, Int.natCast_add, Int.add_assoc]

end Scanner

end TextAt

namespace Scanner

section Excerpt

variable {n : Nat} {more r : List Char} {s s' s'' t t' : Scanner} {ts us : List Token} {u : Token}

/-- A token that ends in front of what is left out is read from the shorter text as well. -/
theorem Behind.next_of_next (h : Behind n more s t) (hnext : t.next = .ok (some u) t')
    (hrest : t'.rest = r ++ more) :
    ∃ s', s.next = .ok (some (u.shift (-n))) s' ∧ Behind n more s' t' := by
  obtain ⟨ws, xs, hcut⟩ := exists_cuts hnext
  have hshort : s.rest = ws ++ (xs ++ r) := by
    have hall := hcut.rest
    rw [h.rest, hrest, ← List.append_assoc, ← List.append_assoc] at hall
    rw [List.append_cancel_right hall, List.append_assoc]
  have hends : u.lexeme.EndsBefore r := by
    intro c hc
    obtain ⟨cs, rfl⟩ := List.head?_eq_some_iff.1 hc
    exact hcut.ends c (by rw [hrest]; rfl)
  have hspan : u.shift (-n) = ⟨u.lexeme, s.pieceSpan ws xs⟩ := by
    unfold Token.shift
    rw [hcut.span]
    simp only [pieceSpan, Span.shift, h.offset, Token.mk.injEq, Span.mk.injEq, true_and]
    omega
  refine ⟨_, hspan ▸ next_of_takes hcut.blanks hshort
    (takes_of_spelledBy hcut.spelled hends hcut.taken), ?_, ?_⟩
  · rw [hrest, rest_pass (hshort.trans (List.append_assoc ws xs r).symm)]
  · rw [hcut.pass]
    show t.offset + _ = s.offset + _ + n
    rw [h.offset]
    omega

/-- All tokens in front of what is left out are read from the shorter text. -/
theorem Scans.of_behind (hscans : Scans t ts t') : ∀ {s : Scanner}, Behind n more s t →
    more <:+ t'.rest → ∃ s', Scans s (ts.map (·.shift (-n))) s' ∧ Behind n more s' t' := by
  induction hscans with
  | refl t => exact fun h _ => ⟨_, .refl _, h⟩
  | step hnext hscans ih =>
    intro s h hmore
    obtain ⟨r, hrest⟩ := hmore.trans hscans.suffix
    obtain ⟨s₁, hnext', h₁⟩ := h.next_of_next hnext hrest.symm
    obtain ⟨s', hscans', h'⟩ := ih h₁ hmore
    exact ⟨s', .step hnext' hscans', h'⟩

/-- Between the tokens that are read the scanner stands somewhere. -/
theorem Scans.exists_between : ∀ {s : Scanner}, Scans s (ts ++ us) s'' →
    ∃ s', Scans s ts s' ∧ Scans s' us s'' := by
  induction ts with
  | nil => exact fun h => ⟨_, .refl _, h⟩
  | cons t ts ih =>
    intro s h
    cases h with
    | step hnext hscans =>
      obtain ⟨s', hts, hus⟩ := ih hscans
      exact ⟨s', .step hnext hts, hus⟩

/-- The scanner stands where the last token that it has read ends. -/
theorem Scans.stop_eq (h : Scans s ts s') (hu : ts.getLast? = some u) :
    u.span.stop = s'.offset := by
  induction h with
  | refl s => cases hu
  | @step s s₁ s' t ts hnext hscans ih =>
    cases hscans with
    | refl s =>
      obtain rfl : t = u := Option.some.inj hu
      obtain ⟨ws, xs, hcut⟩ := exists_cuts hnext
      rw [hcut.span, hcut.pass]
      rfl
    | step hnext' hscans' =>
      rw [List.getLast?_cons_cons] at hu
      exact ih hu

end Excerpt

end Scanner

open Scanner

/-- The text from one token to another has the tokens between them, moved to its beginning. -/
theorem tokens_textAt {d : Document} {front core back : List Token} {span : Span}
    (h : tokens d.text = .ok (front ++ (core ++ back))) (hcovers : Covers core span) :
    tokens (d.textAt span) = .ok (core.map (·.shift (-span.start))) := by
  obtain ⟨s, hscans, -⟩ := tokens_eq_ok.1 h
  obtain ⟨s₁, hfront, hscans⟩ := hscans.exists_between
  obtain ⟨s₂, hcore, -⟩ := hscans.exists_between
  obtain ⟨before, htext, hoffset⟩ := (hfront.standsIn (standsIn_start _)).1
  obtain ⟨first, hfirst, hstart⟩ := hcovers.first
  obtain ⟨last, hlast, hstop⟩ := hcovers.last
  obtain ⟨mid, rfl⟩ := List.head?_eq_some_iff.1 hfirst
  have hend := hcore.stop_eq hlast
  cases hcore with
  | @step _ s₃ _ _ _ hnext hmid =>
    obtain ⟨ws, xs, hcut⟩ := exists_cuts hnext
    -- the tokens are read from behind the blanks up to the end of the last one
    have hread : Scans (s₁.pass ws) (first :: mid) s₂ :=
      .step ((next_pass_blanks hcut.blanks hcut.rest).trans hnext) hmid
    obtain ⟨inner, hinner⟩ := hread.suffix
    have hbefore : (s₁.pass ws).offset = Text.utf8Length (before ++ ws) := by
      rw [Text.utf8Length_append, ← hoffset]
      rfl
    have hstart' : span.start = Text.utf8Length (before ++ ws) := by
      rw [← hstart, hcut.span, ← hbefore]
      rfl
    have hstop' : span.stop = Text.utf8Length (before ++ ws ++ inner) := by
      have hadd := hread.offset_add
      rw [← hinner, Text.utf8Length_append, hbefore] at hadd
      rw [← hstop, hend, Text.utf8Length_append]
      omega
    have htextAt : d.textAt span = String.ofList inner := by
      have hall : d.text.toList = before ++ ws ++ (inner ++ s₂.rest) := by
        rw [htext, hcut.rest, hinner, rest_pass hcut.rest, List.append_assoc]
      rw [← Document.textAt_eq hall, ← hstart', ← hstop']
    have hbehind : Behind (Text.utf8Length (before ++ ws)) s₂.rest (.start inner) (s₁.pass ws) :=
      ⟨hinner.symm, hbefore.trans (Nat.zero_add _).symm⟩
    obtain ⟨s', hshort, hs'⟩ := hread.of_behind hbehind (List.suffix_refl _)
    have hnil : s'.rest = [] :=
      List.append_cancel_right (hs'.rest.symm.trans (List.nil_append _).symm)
    rw [htextAt, hstart']
    refine tokens_eq_ok.2 ⟨s', ?_, ?_⟩
    · rw [String.toList_ofList]
      exact hshort
    · unfold AtEnd
      rw [hnil]
      rfl

end Imp32
