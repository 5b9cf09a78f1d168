import Imp32.Editor.Server
import Imp32.Proofs.Findings
import Imp32.Proofs.Editing.Histories
import Imp32.Proofs.Editing.Words
import Imp32.Proofs.Reading.Names

/-!
# Names and where they are assigned

In a program whose lines end with line feeds, every name resolves (`Server.resolves_names`): at each
place from the start of its token to just behind its end, what is looked up is the name, and what is
shown of it is the target of an assignment to it, if the program has one.

The word at the place comes from how the text is cut (`exists_apart`), the target from the check
(`Program.check_targets`); that the target, too, is the name in the text comes from the reader, whose
variables stand where tokens spell them (`ofTokens_names`).
-/

namespace Imp32

open Text Grammar

/-- The target of an assignment is the token of its name. -/
theorem NamesIn.token_of_assigns {ts : List Token} {es : List Expr} {name : String} {place : Span}
    (h : NamesIn ts es) (hparts : HasParts es) (hassigns : Assigns es name place) :
    ⟨.ident name, place⟩ ∈ ts := by
  obtain ⟨value, span, hmem⟩ := hassigns
  exact h name place (hparts _ hmem (by simp [Expr.parts]))

section Tokens

variable {source name : String} {limit : Int} {p : Program} {ts : List Token}

/-- In a program, the token of a name stands apart in the text. -/
theorem exists_apart (hread : Program.parse source limit = .ok p)
    (htokens : tokens source = .ok ts) {span : Span} (ht : ⟨.ident name, span⟩ ∈ ts) :
    IsName name ∧ ∃ before after, StandsApart source.toList before name.toList after ∧
      span = ⟨utf8Length before, utf8Length (before ++ name.toList)⟩ := by
  obtain ⟨ts', htokens', hp⟩ := Program.parse_eq_ok.1 hread
  rw [htokens] at htokens'
  cases htokens'
  obtain ⟨s, hscans, hend⟩ := Scanner.tokens_eq_ok.1 htokens
  exact (hscans.tokenizes hend).apart [] rfl (ofTokens_sound hp).separated (.inl rfl) _ ht rfl

/-- In a program, the target of an assignment is the token of its name. -/
theorem token_of_assigns (hread : Program.parse source limit = .ok p)
    (htokens : tokens source = .ok ts) {place : Span} (h : Assigns p.parts name place) :
    ⟨.ident name, place⟩ ∈ ts := by
  obtain ⟨ts', htokens', hp⟩ := Program.parse_eq_ok.1 hread
  rw [htokens] at htokens'
  cases htokens'
  exact (ofTokens_names hp).token_of_assigns p.hasParts h

end Tokens

/-! ## Answers about a name -/

/-- A name is no keyword, so that only its target is shown. -/
theorem IsName.lookup_keywordNotes {name : String} (h : IsName name) :
    keywordNotes.lookup name = none := by
  refine List.lookup_eq_none_iff.2 ?_
  simp [keywordNotes, h.ne_if, h.ne_while, h.ne_for]

namespace Editor

/-- What the editor answers at a place where the name is. -/
structure Resolves (e : Editor) (d : Document) (p : Program) (name : String)
    (line character : Nat) : Prop where
  word : wordAt d.text line character = name
  /-- If the program assigns the name, the target of an assignment to it is found, and shown by its
  line and column, counted from one. -/
  assigned : (∃ place, Assigns p.parts name place) → ∃ target, Assigns p.parts name target ∧
    e.definition d.name line character = some (d.region target) ∧
    d.textIn (d.region target) = some name ∧
    e.hover d.name line character =
      some s!"**variable** `{name}`, first assigned at line {(d.region target).startLine + 1}, column {(d.region target).startCharacter + 1}"
  unassigned : (¬∃ place, Assigns p.parts name place) →
    e.definition d.name line character = none ∧ e.hover d.name line character = none

variable {e : Editor} {a : Analysis} {d : Document} {name : String} {line character : Nat}

theorem definition_of_wordAt (he : e.get? d.name = some a) (ha : a.document = d)
    (hword : wordAt d.text line character = name) :
    e.definition d.name line character = (a.targets.get? name).map d.region := by
  subst ha
  unfold Editor.definition
  rw [he]
  show (a.targets.get? (wordAt _ _ _)).map _ = _
  rw [hword]

theorem hover_of_wordAt (he : e.get? d.name = some a) (ha : a.document = d)
    (hword : wordAt d.text line character = name) (hname : IsName name) :
    e.hover d.name line character = (a.targets.get? name).map fun target =>
      s!"**variable** `{name}`, first assigned at line {(d.region target).startLine + 1}, column {(d.region target).startCharacter + 1}" := by
  subst ha
  have hne : name.isEmpty = false := by
    obtain ⟨first, rest, hfirst, -⟩ := hname.exists_first
    rw [Bool.eq_false_iff, ne_eq, String.isEmpty_iff]
    rintro rfl
    cases hfirst
  unfold Editor.hover
  rw [he]
  show (if (wordAt _ _ _).isEmpty = true then none else a.hover (wordAt _ _ _)) = _
  rw [hword, hne, if_neg (by decide)]
  unfold Analysis.hover
  rw [hname.lookup_keywordNotes]
  rfl

end Editor

/-- In a program whose lines end with line feeds, what is answered at each place of a name, the one
right behind it included, is about the name and shows where it is assigned. -/
theorem Server.resolves_names (s : Server) (event : Event) {d : Document} {p : Program}
    {ts : List Token} {t : Token} {name : String} (huri : event.uri = d.name)
    (htext : event.text? = some d.text) (hread : Program.parse d.text defaultLimit = .ok p)
    (htokens : tokens d.text = .ok ts) (hfeeds : FeedsOnly d.text.toList) (ht : t ∈ ts)
    (hname : t.lexeme = .ident name) :
    (d.region t.span).stopLine = (d.region t.span).startLine ∧
      ∀ character, (d.region t.span).startCharacter ≤ character →
        character ≤ (d.region t.span).stopCharacter →
          (s.tell event).editor.Resolves d p name (d.region t.span).startLine character := by
  obtain ⟨lexeme, span⟩ := t
  obtain rfl : lexeme = _ := hname
  obtain ⟨hisName, before, after, happart, rfl⟩ := exists_apart hread htokens ht
  obtain ⟨f, hf⟩ := Program.check_ok (parse_proper hread)
  obtain ⟨hallowed, hnoted⟩ := Program.check_targets (parse_proper hread) hf
  have he := get?_tell_of_text (s := s) huri htext (Document.analyze_of_ok hread hf)
  rw [Document.region_of_apart happart hisName]
  refine ⟨rfl, fun character hlow hhigh => ?_⟩
  obtain ⟨k, rfl⟩ := Nat.exists_eq_add_of_le hlow
  have hword := Document.wordAt_of_name happart hisName hfeeds (Nat.le_of_add_le_add_left hhigh)
  have hdefinition := Editor.definition_of_wordAt he rfl hword
  have hhover := Editor.hover_of_wordAt he rfl hword hisName
  refine ⟨hword, fun hplace => ?_, fun hnone => ?_⟩
  · obtain ⟨target, htarget⟩ := Option.isSome_iff_exists.1 ((hnoted name).2 hplace)
    have hassigns := hallowed htarget
    obtain ⟨-, before', after', happart', rfl⟩ :=
      exists_apart hread htokens (token_of_assigns hread htokens hassigns)
    rw [htarget] at hdefinition hhover
    exact ⟨_, hassigns, hdefinition, Document.textIn_of_name happart' hisName hfeeds, hhover⟩
  · have hmissing : f.targets.get? name = none :=
      Option.not_isSome_iff_eq_none.1 (mt (hnoted name).1 hnone)
    rw [hmissing] at hdefinition hhover
    exact ⟨hdefinition, hhover⟩

/-- A name that is assigned behind a wide blank, and one that is not assigned. -/
def wideIndent : Document := ⟨"y;\r\n\u3000x = x;", "a.clb"⟩

/-- What is answered right behind the last name, and at the first one. -/
theorem Server.resolves_names_wideIndent : ∃ p, Program.parse wideIndent.text defaultLimit = .ok p ∧
    (fresh.tell (.opened "a.clb" wideIndent.text)).editor.Resolves wideIndent p "x" 1 6 ∧
    (fresh.tell (.opened "a.clb" wideIndent.text)).editor.Resolves wideIndent p "y" 0 0 := by
  have hcut : (tokens wideIndent.text).toOption = some [⟨.ident "y", ⟨0, 1⟩⟩, ⟨.semicolon, ⟨1, 2⟩⟩,
      ⟨.ident "x", ⟨7, 8⟩⟩, ⟨.op .assign, ⟨9, 10⟩⟩, ⟨.ident "x", ⟨11, 12⟩⟩,
      ⟨.semicolon, ⟨12, 13⟩⟩] := by decide +kernel
  have hprogram : (Program.parse wideIndent.text defaultLimit).toOption.isSome := by decide +kernel
  have hfeeds : FeedsOnly wideIndent.text.toList := by simp [wideIndent, FeedsOnly, inLine, isLineBreak]
  have hx : wideIndent.region ⟨11, 12⟩ = ⟨1, 5, 1, 6⟩ := by decide +kernel
  have hy : wideIndent.region ⟨0, 1⟩ = ⟨0, 0, 0, 1⟩ := by decide +kernel
  cases htokens : tokens wideIndent.text with
  | error e =>
    rw [htokens] at hcut
    cases hcut
  | ok ts =>
    cases hread : Program.parse wideIndent.text defaultLimit with
    | error e =>
      rw [hread] at hprogram
      cases hprogram
    | ok p =>
      rw [htokens] at hcut
      cases hcut
      have hlast := (resolves_names fresh (.opened "a.clb" wideIndent.text) rfl rfl hread htokens
        hfeeds (t := ⟨.ident "x", ⟨11, 12⟩⟩) (by simp) rfl).2 6
      have hfirst := (resolves_names fresh (.opened "a.clb" wideIndent.text) rfl rfl hread htokens
        hfeeds (t := ⟨.ident "y", ⟨0, 1⟩⟩) (by simp) rfl).2 0
      rw [hx] at hlast
      rw [hy] at hfirst
      exact ⟨p, rfl, hlast (by decide) (by decide), hfirst (by decide) (by decide)⟩

end Imp32
