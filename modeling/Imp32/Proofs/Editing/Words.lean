import Imp32.Editor
import Imp32.Proofs.Grammar.Neighbours
import Imp32.Proofs.Munch
import Imp32.Proofs.Positions
import Imp32.Proofs.Text.Letters

/-!
# Words of a text

The word at a place of a line goes as far as there are letters and numerals. A name of a program is
such a word by itself (`Tokenizes.apart`): blanks and signs are no letters, keywords and names do
not touch, and a number is never directly followed by a name. So the word that is looked up anywhere
from the start of a name to just behind its end is the name (`Document.wordAt_of_apart`), as long
as every line ends with a line feed.
-/

namespace Imp32

open Text Grammar

/-! ## Words that stand apart -/

/-- The text has the word between the two others, and no letter or numeral touches it. -/
structure StandsApart (text before word after : List Char) : Prop where
  text_eq : text = before ++ (word ++ after)
  starts : ∀ c ∈ before.getLast?, isAlphanumeric c = false
  stops : ∀ c ∈ after.head?, isAlphanumeric c = false

section Apart

variable {l : Lexeme} {xs : List Char} {name : String}

theorem IsName.exists_first (h : IsName name) :
    ∃ first rest, name.toList = first :: rest ∧ first.isAlphanum = true := by
  obtain ⟨first, rest, hname, hfirst, -⟩ := h.letters
  exact ⟨first, rest, hname, by simp [Char.isAlphanum, hfirst]⟩

theorem IsName.isAlphanum (h : IsName name) : ∀ c ∈ name.toList, c.isAlphanum = true := by
  obtain ⟨first, rest, hname, hfirst, hrest⟩ := h.letters
  rw [hname]
  exact List.forall_mem_cons.2 ⟨by simp [Char.isAlphanum, hfirst], hrest⟩

/-- What has only one spelling is a keyword, which letters and digits go on with, or is spelled by
signs. -/
theorem Lexeme.keyword_or_signs {text : String} (h : l.spelling? = some text) :
    (text.toList.all Char.isAlphanum = true ∧ ∀ c, l.goesOnWith c = c.isAlphanum) ∨
      text.toList.all isSign = true := by
  cases l with
  | op op =>
    cases h
    refine .inr ?_
    cases op <;> decide
  | num _ => cases h
  | ident _ => cases h
  | ifWord =>
    cases h
    exact .inl ⟨by decide, fun _ => rfl⟩
  | whileWord =>
    cases h
    exact .inl ⟨by decide, fun _ => rfl⟩
  | forWord =>
    cases h
    exact .inl ⟨by decide, fun _ => rfl⟩
  | _ =>
    cases h
    exact .inr (by decide)

/-- What is spelled begins with an ASCII letter or digit, or with a sign. -/
theorem Lexeme.SpelledBy.first (h : l.SpelledBy xs) :
    ∀ c ∈ xs.head?, c.isAlphanum = false → isAlphanumeric c = false := by
  intro c hc hnot
  have hmem : c ∈ xs := List.mem_of_mem_head? hc
  cases h with
  | fixed hl =>
    obtain ⟨hletters, -⟩ | hsigns := Lexeme.keyword_or_signs hl
    · rw [List.all_eq_true.1 hletters c hmem] at hnot
      cases hnot
    · exact isAlphanumeric_of_isSign (List.all_eq_true.1 hsigns c hmem)
  | num _ hdigits =>
    rw [Char.isAlphanum, hdigits c hmem, Bool.or_true] at hnot
    cases hnot
  | ident hname =>
    rw [hname.isAlphanum c hmem] at hnot
    cases hnot

/-- What a letter directly follows, and no number, ends with a sign. -/
theorem Lexeme.SpelledBy.last {first : Char} {rest : List Char} (h : l.SpelledBy xs)
    (hends : l.EndsBefore (first :: rest)) (hfirst : first.isAlphanum = true)
    (hfixed : l.spelling?.isSome) : ∀ c ∈ xs.getLast?, isAlphanumeric c = false := by
  intro c hc
  have hgoes := hends first rfl
  cases h with
  | fixed hl =>
    obtain ⟨-, hkeyword⟩ | hsigns := Lexeme.keyword_or_signs hl
    · rw [hkeyword, hfirst] at hgoes
      cases hgoes
    · exact isAlphanumeric_of_isSign (List.all_eq_true.1 hsigns c (List.mem_of_getLast? hc))
  | num => cases hfixed
  | ident => cases hfixed

/-- A text that is cut into tokens begins with a blank, a sign, or an ASCII letter or digit. -/
theorem Tokenizes.first {offset : Nat} {cs : List Char} {ts : List Token}
    (h : Tokenizes offset cs ts) : ∀ c ∈ cs.head?, c.isAlphanum = false → isAlphanumeric c = false := by
  intro c hc hnot
  cases h with
  | blanks hws => exact isAlphanumeric_of_isBlank (hws c (List.mem_of_mem_head? hc))
  | @token _ ws xs rest l ts hws hl _ _ =>
    cases ws with
    | cons w ws =>
      cases hc
      exact isAlphanumeric_of_isBlank (hws c List.mem_cons_self)
    | nil =>
      refine hl.first c ?_ hnot
      obtain ⟨x, tail, rfl⟩ := List.exists_cons_of_ne_nil hl.ne_nil
      exact hc

/-- The lexeme that has been read last, if there is one, ends here, and the next one may follow. -/
def ReadUpTo (before cs : List Char) (ls : List Lexeme) : Prop :=
  before = [] ∨ ∃ pre xs l, before = pre ++ xs ∧ Lexeme.SpelledBy l xs ∧ l.EndsBefore cs ∧
    Separated (l :: ls)

/-- In front of a name there is no letter and no numeral. -/
theorem ReadUpTo.starts {before rest : List Char} {ls : List Lexeme} {first : Char}
    (h : ReadUpTo before (first :: rest) (.ident name :: ls)) (hfirst : first.isAlphanum = true) :
    ∀ c ∈ before.getLast?, isAlphanumeric c = false := by
  obtain rfl | ⟨pre, xs, l, rfl, hl, hends, hsep⟩ := h
  · exact fun _ => nofun
  · have hfixed : l.spelling?.isSome :=
      ((List.isChain_cons_cons.1 hsep).1).resolve_right (by simp [Lexeme.spelling?])
    intro c hc
    rw [List.getLast?_append_of_ne_nil _ hl.ne_nil] at hc
    exact hl.last hends hfirst hfixed c hc

/-- Each name stands apart from other letters and numerals, at the bytes of its token. -/
theorem Tokenizes.apart {offset : Nat} {cs : List Char} {ts : List Token}
    (h : Tokenizes offset cs ts) (pre : List Char) (hoffset : offset = utf8Length pre)
    (hsep : Separated (ts.map Token.lexeme)) (hpre : ReadUpTo pre cs (ts.map Token.lexeme)) :
    ∀ t ∈ ts, t.lexeme = .ident name → IsName name ∧ ∃ before after,
      StandsApart (pre ++ cs) before name.toList after ∧
        t.span = ⟨utf8Length before, utf8Length (before ++ name.toList)⟩ := by
  induction h generalizing pre with
  | blanks _ => exact fun _ => nofun
  | @token offset ws xs rest l ts hws hl hends htail ih =>
    subst hoffset
    intro t ht hlexeme
    obtain rfl | ht := List.mem_cons.1 ht
    · change l = .ident name at hlexeme
      subst hlexeme
      cases hl with
      | fixed hl => cases hl
      | ident hname =>
        refine ⟨hname, pre ++ ws, rest, ⟨by simp, ?_, ?_⟩, ?_⟩
        · cases hblank : ws.getLast? with
          | some c =>
            rw [List.getLast?_append, hblank]
            rintro _ ⟨⟩
            exact isAlphanumeric_of_isBlank (hws c (List.mem_of_getLast? hblank))
          | none =>
            obtain rfl := List.getLast?_eq_none_iff.1 hblank
            obtain ⟨first, tail, hfirst, halpha⟩ := hname.exists_first
            rw [List.append_nil]
            rw [List.nil_append, hfirst] at hpre
            exact hpre.starts halpha
        · exact fun c hc => htail.first c hc (hends c hc)
        · simp [utf8Length_append]
    · obtain ⟨hname, before, after, happart, hspan⟩ := ih (pre ++ (ws ++ xs))
        (by simp [utf8Length_append]) (List.isChain_cons.1 hsep).2
        (.inr ⟨pre ++ ws, xs, l, by simp, hl, hends, hsep⟩) t ht hlexeme
      rw [List.append_assoc, List.append_assoc] at happart
      exact ⟨hname, before, after, happart, hspan⟩

end Apart

/-! ## The word at a place -/

section Around

variable {before word after : List Char} {k : Nat}

theorem takeWhileEnd_append_of_all {p : Char → Bool} {xs ys : List Char}
    (hys : ∀ c ∈ ys, p c = true) (hxs : ∀ c ∈ xs.getLast?, p c = false) :
    takeWhileEnd p (xs ++ ys) = ys := by
  have hnone : xs.rtakeWhile p = [] := by
    obtain rfl | ⟨zs, c, rfl⟩ := List.eq_nil_or_concat xs
    · rfl
    · rw [List.concat_eq_append] at hxs ⊢
      exact List.rtakeWhile_concat_neg _ _ _ (by simp [hxs c List.getLast?_concat])
  exact (rtakeWhile_append_of_all hys).trans (by rw [hnone, List.nil_append])

/-- The word is found from each of its characters, and from the one behind it. -/
theorem wordAround_of_apart (hword : ∀ c ∈ word, isAlphanumeric c = true)
    (hbefore : ∀ c ∈ before.getLast?, isAlphanumeric c = false)
    (hafter : ∀ c ∈ after.head?, isAlphanumeric c = false) (hk : k ≤ word.length) :
    wordAround (before ++ (word ++ after)) (before.length + k) = word := by
  have hleft : (before ++ (word ++ after)).take (before.length + k) = before ++ word.take k := by
    rw [List.take_length_add_append, List.take_append_of_le_length hk]
  have hright : (before ++ (word ++ after)).drop (before.length + k) = word.drop k ++ after := by
    rw [List.drop_length_add_append, List.drop_append_of_le_length hk]
  unfold wordAround
  rw [hleft, hright,
    takeWhileEnd_append_of_all (fun c hc => hword c (List.mem_of_mem_take hc)) hbefore,
    Scanner.takeWhile_append_of_ends (fun c hc => hword c (List.mem_of_mem_drop hc)) hafter,
    List.take_append_drop]

end Around

/-- What is a word's is a line's. -/
theorem inLine_of_isAlphanum {c : Char} (h : c.isAlphanum = true) : inLine c = true := by
  unfold inLine
  rw [Bool.not_eq_true']
  refine Bool.eq_false_iff.2 fun hbreak => ?_
  simp only [isLineBreak, Bool.or_eq_true, decide_eq_true_eq] at hbreak
  obtain ((((((((rfl | rfl) | rfl) | rfl) | rfl) | rfl) | rfl) | rfl) | rfl) | rfl := hbreak <;>
    exact absurd h (by decide)

/-- In front of a character that is no line feed, a text is cut as it is. -/
theorem Text.FeedsOnly.of_append {before after : List Char} {c : Char}
    (h : FeedsOnly (before ++ c :: after)) (hc : c ≠ '\n') : FeedsOnly before := by
  fun_induction FeedsOnly before with
  | case1 => trivial
  | case2 rest ih => exact ih h
  | case3 d rest hne ih =>
    have hpair : ∀ rest', d = '\r' → rest ++ c :: after ≠ '\n' :: rest' := by
      rintro rest' rfl hrest
      cases rest with
      | nil => exact hc (List.cons.inj hrest).1
      | cons e rest => exact hne rest rfl (by rw [(List.cons.inj hrest).1])
    rw [List.cons_append, FeedsOnly.eq_3 _ _ hpair] at h
    exact ⟨h.1, ih h.2⟩

/-- Right behind the end of a line, the word is that of the last character. -/
theorem wordAt_of_line_end {source : String} {n : Nat} {line : List Char}
    (hline : (linesOf source.toList)[n]? = some line) (hne : 0 < line.length) :
    wordAt source n line.length = String.ofList (wordAround line (line.length - 1)) := by
  have hn : ¬(n : Int) < 0 := by omega
  have hk : ¬(0 ≤ (line.length : Int) ∧ (line.length : Int) < line.length) := by omega
  have hk' : 0 < (line.length : Int) ∧ (line.length : Int) ≤ line.length := by omega
  unfold wordAt
  rw [if_neg hn, Int.toNat_natCast, hline]
  dsimp only
  rw [if_neg hk, if_pos hk', Int.toNat_natCast]

/-- A word of a line is looked up from its first character to behind its last one. -/
theorem wordAt_of_apart {source : String} {n k : Nat} {before word after : List Char}
    (hline : (linesOf source.toList)[n]? = some (before ++ (word ++ after)))
    (hword : ∀ c ∈ word, isAlphanumeric c = true) (hne : 0 < word.length)
    (hbefore : ∀ c ∈ before.getLast?, isAlphanumeric c = false)
    (hafter : ∀ c ∈ after.head?, isAlphanumeric c = false) (hk : k ≤ word.length) :
    wordAt source n (before.length + k : Nat) = String.ofList word := by
  by_cases hinside : before.length + k < (before ++ (word ++ after)).length
  · rw [wordAt_of_line hline hinside, wordAround_of_apart hword hbefore hafter hk]
  · have hend : before.length + k = (before ++ (word ++ after)).length := by
      rw [List.length_append, List.length_append] at hinside ⊢
      omega
    have hback : (before ++ (word ++ after)).length - 1 = before.length + (k - 1) := by
      rw [← hend]
      rw [List.length_append, List.length_append] at hend
      omega
    rw [hend, wordAt_of_line_end hline (by rw [List.length_append, List.length_append]; omega),
      hback, wordAround_of_apart hword hbefore hafter (by omega)]

namespace Document

/-- The text that a region covers, if it is a part of one line. -/
def textIn (d : Document) (r : Region) : Option String := do
  let line ← d.lines[r.startLine]?
  if r.stopLine = r.startLine ∧ r.stopCharacter ≤ line.length then
    return String.ofList ((line.toList.take r.stopCharacter).drop r.startCharacter)
  else none

section Places

variable {d : Document} {before after : List Char} {name : String}

/-- A name that stands apart is in one line. -/
theorem region_of_apart (h : StandsApart d.text.toList before name.toList after)
    (hname : IsName name) :
    d.region ⟨utf8Length before, utf8Length (before ++ name.toList)⟩ =
      ⟨before.count '\n', (takeWhileEnd notFeed before).length, before.count '\n',
        (takeWhileEnd notFeed before).length + name.length⟩ := by
  have hfeed : ∀ c ∈ name.toList, notFeed c = true := by
    intro c hc
    have hletter := hname.isAlphanum c hc
    simp only [notFeed, ne_eq, decide_not, Bool.not_eq_true', decide_eq_false_iff_not]
    rintro rfl
    exact absurd hletter (by decide)
  have hcount : (before ++ name.toList).count '\n' = before.count '\n' := by
    rw [List.count_append, List.count_eq_zero.2 fun hmem => absurd (hfeed _ hmem) (by decide),
      Nat.add_zero]
  have hlast : takeWhileEnd notFeed (before ++ name.toList) =
      takeWhileEnd notFeed before ++ name.toList := rtakeWhile_append_of_all hfeed
  have hstop : d.text.toList = (before ++ name.toList) ++ after := by
    rw [h.text_eq, List.append_assoc]
  unfold region
  rw [position_utf8Length h.text_eq, position_utf8Length hstop, hcount, hlast, List.length_append,
    String.length_toList]
  rfl

/-- The line of a name that stands apart, if every line ends with a line feed. -/
theorem line_of_apart (h : StandsApart d.text.toList before name.toList after)
    (hname : IsName name) (hfeeds : FeedsOnly d.text.toList) :
    (linesOf d.text.toList)[before.count '\n']? =
      some (takeWhileEnd notFeed before ++ (name.toList ++ after.takeWhile inLine)) := by
  obtain ⟨first, rest, hfirst, hletter⟩ := hname.exists_first
  have hin := inLine_of_isAlphanum hletter
  have htext : d.text.toList = before ++ first :: (rest ++ after) := by
    rw [h.text_eq, hfirst, List.cons_append]
  have hbefore : FeedsOnly before := by
    refine FeedsOnly.of_append (htext ▸ hfeeds) ?_
    rintro rfl
    exact absurd hletter (by decide)
  have hrest : ∀ c ∈ name.toList, inLine c = true :=
    fun c hc => inLine_of_isAlphanum (hname.isAlphanum c hc)
  have htail : first :: (rest ++ after).takeWhile inLine =
      name.toList ++ after.takeWhile inLine := by
    rw [← List.takeWhile_append_of_pos hrest, hfirst, List.cons_append,
      List.takeWhile_cons_of_pos hin]
  rw [htext, count_eq_completeLines_iff.2 hbefore, getElem?_linesOf hin, lineAround, htail,
    takeWhileEnd_eq_of_feedsOnly hbefore]

/-- The name is looked up from each place of its region. -/
theorem wordAt_of_name (h : StandsApart d.text.toList before name.toList after)
    (hname : IsName name) (hfeeds : FeedsOnly d.text.toList) {k : Nat} (hk : k ≤ name.length) :
    wordAt d.text (before.count '\n') ((takeWhileEnd notFeed before).length + k : Nat) = name := by
  obtain ⟨first, rest, hfirst, -⟩ := hname.exists_first
  have hpos : 0 < name.toList.length := by
    rw [hfirst]
    exact Nat.zero_lt_succ _
  have hbefore : ∀ c ∈ (takeWhileEnd notFeed before).getLast?, isAlphanumeric c = false := by
    intro c hc
    obtain ⟨pre, hpre⟩ := List.rtakeWhile_suffix notFeed before
    refine h.starts c ?_
    rw [← hpre]
    exact List.mem_getLast?_append_of_mem_getLast? hc
  have hafter : ∀ c ∈ (after.takeWhile inLine).head?, isAlphanumeric c = false := by
    intro c hc
    cases after with
    | nil => cases hc
    | cons d after =>
      rw [List.takeWhile_cons] at hc
      split at hc
      · exact h.stops c hc
      · cases hc
  rw [wordAt_of_apart (line_of_apart h hname hfeeds)
    (fun c hc => isAlphanumeric_of_isAlphanum (hname.isAlphanum c hc)) hpos hbefore hafter hk,
    String.ofList_toList]

/-- The region of a name has its text. -/
theorem textIn_of_name (h : StandsApart d.text.toList before name.toList after)
    (hname : IsName name) (hfeeds : FeedsOnly d.text.toList) :
    d.textIn (d.region ⟨utf8Length before, utf8Length (before ++ name.toList)⟩) = some name := by
  rw [region_of_apart h hname]
  unfold textIn lines
  rw [List.getElem?_map, line_of_apart h hname hfeeds]
  have htake : (takeWhileEnd notFeed before ++ (name.toList ++ after.takeWhile inLine)).take
      ((takeWhileEnd notFeed before).length + name.length) =
        takeWhileEnd notFeed before ++ name.toList := by
    rw [← String.length_toList, List.take_length_add_append, List.take_left]
  simp [htake]

end Places

end Document

end Imp32
