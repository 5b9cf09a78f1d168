import Imp32.Proofs.Munch

/-!
# Where the tokens of a text stand

The scanner counts bytes while it goes over characters. What it cuts off has a range of bytes that
is not empty and begins and ends between characters (`Span.Within`), whether it is a token or an
error, and the tokens of a text stand one behind the other (`tokens_within`, `tokens_ordered`).
-/

namespace Imp32

/-- There is a place between characters with so many bytes in front of it. -/
def Text.IsBoundary (cs : List Char) (offset : Int) : Prop :=
  ∃ before after, cs = before ++ after ∧ offset = Text.utf8Length before

/-- The span is a range of bytes within the text that is not empty and does not split a
character. -/
structure Span.Within (span : Span) (cs : List Char) : Prop where
  start : Text.IsBoundary cs span.start
  stop : Text.IsBoundary cs span.stop
  nonempty : span.start < span.stop

theorem Text.utf8Length_pos {cs : List Char} (h : cs ≠ []) : 0 < utf8Length cs := by
  obtain ⟨c, rest, rfl⟩ := List.exists_cons_of_ne_nil h
  exact Nat.add_pos_left c.utf8Size_pos _

/-- The tokens stand one behind the other, and none is empty. -/
structure Ordered (ts : List Token) : Prop where
  nonempty : ∀ t ∈ ts, t.span.start < t.span.stop
  apart : ts.Pairwise fun t u => t.span.stop ≤ u.span.start

namespace Ordered

variable {ts us : List Token}

theorem sublist (h : Ordered ts) (hus : us.Sublist ts) : Ordered us where
  nonempty t ht := h.nonempty t (hus.subset ht)
  apart := h.apart.sublist hus

/-- Of two tokens the first ends before the second begins. -/
theorem stop_le_start (h : Ordered (ts ++ us)) {t u : Token} (ht : t ∈ ts) (hu : u ∈ us) :
    t.span.stop ≤ u.span.start :=
  (List.pairwise_append.1 h.apart).2.2 t ht u hu

end Ordered

namespace Scanner

/-- The scanner stands in the text, behind as many bytes as it has counted. -/
def StandsIn (cs : List Char) (s : Scanner) : Prop :=
  ∃ before, cs = before ++ s.rest ∧ s.offset = Text.utf8Length before

section StandsIn

variable {cs ws xs rest : List Char} {s s' : Scanner} {ts : List Token}

theorem standsIn_start (cs : List Char) : StandsIn cs (.start cs) :=
  ⟨[], rfl, rfl⟩

/-- A piece behind blanks is within the text. -/
theorem StandsIn.pieceSpan (h : StandsIn cs s) (hrest : s.rest = ws ++ (xs ++ rest))
    (hne : xs ≠ []) : (s.pieceSpan ws xs).Within cs := by
  obtain ⟨before, hcs, hoffset⟩ := h
  have hpos := Text.utf8Length_pos hne
  refine ⟨⟨before ++ ws, xs ++ rest, ?_, ?_⟩, ⟨before ++ (ws ++ xs), rest, ?_, ?_⟩, ?_⟩
  · rw [hcs, hrest, List.append_assoc]
  · simp [Scanner.pieceSpan, hoffset, Text.utf8Length_append]
  · simp [hcs, hrest]
  · simp [Scanner.pieceSpan, hoffset, Text.utf8Length_append]
  · simp only [Scanner.pieceSpan, Text.utf8Length_append]
    omega

theorem StandsIn.next {t : Token} (h : StandsIn cs s) (hnext : s.next = .ok (some t) s') :
    StandsIn cs s' ∧ t.span.Within cs ∧ s.offset ≤ t.span.start ∧ t.span.stop = s'.offset := by
  obtain ⟨ws, xs, hcut⟩ := exists_cuts hnext
  have hwithin := h.pieceSpan hcut.rest hcut.spelled.ne_nil
  obtain ⟨before, hcs, hoffset⟩ := h
  refine ⟨⟨before ++ (ws ++ xs), ?_, ?_⟩, hcut.span ▸ hwithin, ?_, ?_⟩
  · rw [hcs, hcut.rest]
    simp
  · rw [hcut.pass, Text.utf8Length_append, ← hoffset]
    rfl
  · rw [hcut.span]
    exact Int.le_add_of_nonneg_right (Int.natCast_nonneg _)
  · rw [hcut.span, hcut.pass]
    rfl

/-- The tokens that the scanner reads on its way are within the text and stand in order, none of
them before the place from which it started. -/
theorem Scans.standsIn (h : Scans s ts s') : StandsIn cs s →
    StandsIn cs s' ∧ Ordered ts ∧ ∀ t ∈ ts, t.span.Within cs ∧ s.offset ≤ t.span.start := by
  induction h with
  | refl s => exact fun hs => ⟨hs, ⟨nofun, .nil⟩, nofun⟩
  | @step s s₁ s' t ts hnext _ ih =>
    intro hs
    obtain ⟨hs₁, hwithin, hle, hstop⟩ := hs.next hnext
    obtain ⟨hs', hordered, htokens⟩ := ih hs₁
    have hlater : ∀ u ∈ ts, t.span.stop ≤ u.span.start := fun u hu => hstop ▸ (htokens u hu).2
    refine ⟨hs', ⟨List.forall_mem_cons.2 ⟨hwithin.nonempty, hordered.nonempty⟩,
      List.pairwise_cons.2 ⟨hlater, hordered.apart⟩⟩, List.forall_mem_cons.2 ⟨⟨hwithin, hle⟩, ?_⟩⟩
    intro u hu
    have hnonempty := hwithin.nonempty
    exact ⟨(htokens u hu).1, by have := hlater u hu; omega⟩

end StandsIn

/-- An error has the place of the piece at which it comes up. -/
theorem span_of_spelled {first : Char} {tail : List Char} {place : Span} {e : LexError}
    (h : spelled first tail place = .error e) :
    ∀ fault ∈ e.fault?, fault.span = some place := by
  intro fault hfault
  unfold spelled numeral sign at h
  split at h
  · split at h
    · cases h
      cases hfault
      rfl
    · split at h
      · cases h
        cases hfault
      · split at h
        · cases h
          cases hfault
          rfl
        · cases h
  · split at h
    · cases h
    · split at h
      · cases h
      · cases h
        cases hfault
        rfl

end Scanner

open Scanner

variable {source : String} {ts : List Token}

theorem tokens_ordered (h : tokens source = .ok ts) : Ordered ts := by
  obtain ⟨s, hscans, -⟩ := tokens_eq_ok.1 h
  exact (hscans.standsIn (standsIn_start _)).2.1

theorem tokens_within (h : tokens source = .ok ts) : ∀ t ∈ ts, t.span.Within source.toList := by
  obtain ⟨s, hscans, -⟩ := tokens_eq_ok.1 h
  exact fun t ht => ((hscans.standsIn (standsIn_start _)).2.2 t ht).1

/-- A lexical error that is shown is shown within the text. -/
theorem tokens_error_within {e : LexError} (h : tokens source = .error e) :
    ∀ fault ∈ e.fault?, ∀ span ∈ fault.span, span.Within source.toList := by
  obtain ⟨us, s, hscans, after, hnext⟩ := tokens_eq_error.1 h
  obtain ⟨first, rest, hrest, hspelled, -⟩ := next_eq_error.1 hnext
  intro fault hfault span hspan
  rw [span_of_spelled hspelled fault hfault] at hspan
  cases hspan
  have hpiece := (rest_eq_piece hrest).trans (List.append_assoc _ _ _)
  exact (hscans.standsIn (standsIn_start _)).1.pieceSpan hpiece (List.cons_ne_nil _ _)

end Imp32
