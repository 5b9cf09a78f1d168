import Imp32.Editor.Server
import Imp32.Proofs.Checking
import Imp32.Proofs.Editing.Clients
import Imp32.Proofs.Editing.Histories
import Imp32.Proofs.Nesting

/-!
# Laying a document out

There is an edit just where a document is a program that is not laid out; it replaces the whole
document by the layout of the program, in every client, and then there is nothing left to do and
the same to report (`Server.lays_out`). The first part is that the edit goes up to a place behind
the last line (`Client.covers_of_lines`), the second that the layout is read as the same program
under the same limit (`parse_print`), of which the checker says the same (`Program.check_congr`).
-/

namespace Imp32

/-- What a report says, apart from its place. -/
def Report.said (r : Report) : Severity × String × String :=
  (r.severity, r.code, r.message)

/-- Findings that are the same but for the places are reported alike. -/
theorem Findings.Agree.reports {f g : Findings} (h : f.Agree g) (d d' : Document) :
    (f.diagnostics.map (·.report d)).map Report.said =
      (g.diagnostics.map (·.report d')).map Report.said := by
  have hsaid : ∀ (d : Document) (ds : List Diagnostic), (ds.map (·.report d)).map Report.said =
      (ds.map Diagnostic.said).map fun said =>
        (said.1, said.2.1, s!"[{said.2.1}] {said.2.2}") := by
    intro d ds
    rw [List.map_map, List.map_map]
    rfl
  rw [hsaid, hsaid, h.diagnostics]

namespace Analysis

variable {a : Analysis} {p : Program}

theorem layoutEdit_of_none (h : a.program = none) : a.layoutEdit = none := by
  unfold layoutEdit
  rw [h]
  rfl

theorem layoutEdit_of_print (h : a.program = some p) (hp : p.print = a.document.text) :
    a.layoutEdit = none := by
  unfold layoutEdit
  rw [h]
  exact if_pos hp

/-- The edit of a program that is not laid out goes from the start to behind the last line. -/
theorem layoutEdit_of_ne (h : a.program = some p) (hp : p.print ≠ a.document.text) :
    ∃ character, a.layoutEdit = some
      ⟨⟨0, 0, (Text.linesOf a.document.text.toList).length, character⟩, p.print⟩ := by
  refine ⟨(a.document.lines.getLast?.getD "").length, ?_⟩
  unfold layoutEdit
  rw [h]
  refine (if_neg hp).trans ?_
  rw [Document.lines, List.length_map]

end Analysis

namespace Server

/-- What a server does about the layout of a document whose text it has just been given. -/
structure LaysOut (s : Server) (d : Document) : Prop where
  /-- There is no edit just if the text is no program or is laid out. -/
  none_iff : s.editor.layoutEdit d.name = none ↔
    (∃ e, Program.parse d.text defaultLimit = .error e) ∨
      ∃ p, Program.parse d.text defaultLimit = .ok p ∧ p.print = d.text
  /-- An edit covers the whole text for every client, and leaves the layout of the program. -/
  replaces : ∀ edit, s.editor.layoutEdit d.name = some edit →
    ∃ p, Program.parse d.text defaultLimit = .ok p ∧ edit.text = p.print ∧
      ∀ client : Client, client.Covers edit.region d.text ∧ client.apply edit d.text = p.print
  /-- Given the new text, the server has no further edit, and it reports the same as before. -/
  settles : ∀ edit, s.editor.layoutEdit d.name = some edit → ∀ event : Event,
    event.uri = d.name → event.text? = some edit.text →
      (s.tell event).editor.layoutEdit d.name = none ∧ ∃ reports reports',
        s.shown? d.name = some reports ∧ (s.tell event).shown? d.name = some reports' ∧
          reports'.map Report.said = reports.map Report.said

variable {s : Server} {d : Document} {a : Analysis}

theorem layoutEdit_of_get? {e : Editor} {uri : String} (h : e.get? uri = some a) :
    e.layoutEdit uri = a.layoutEdit := by
  unfold Editor.layoutEdit
  rw [h]
  rfl

/-- A program that is the same but for its spans is laid out as it and reported alike. -/
theorem settles_of_analysis {p : Program} {f : Findings}
    (hread : Program.parse d.text defaultLimit = .ok p) (hf : p.check = .ok f)
    (hshown : s.shown? d.name = some (f.diagnostics.map (·.report d))) {event : Event}
    (huri : event.uri = d.name) (htext : event.text? = some p.print) :
    (s.tell event).editor.layoutEdit d.name = none ∧ ∃ reports reports',
      s.shown? d.name = some reports ∧ (s.tell event).shown? d.name = some reports' ∧
        reports'.map Report.said = reports.map Report.said := by
  obtain ⟨ts, -, hp⟩ := Program.parse_eq_ok.1 hread
  obtain ⟨q, hq, hsame⟩ := parse_print (parse_proper hread) (ofTokens_within hp)
  obtain ⟨g, hg⟩ := Program.check_ok (parse_proper hq)
  have hanalysis := Document.analyze_of_ok (d := ⟨p.print, d.name⟩) hq hg
  refine ⟨?_, _, _, hshown, shown?_tell_of_text (d := ⟨p.print, d.name⟩) huri htext hanalysis, ?_⟩
  · rw [layoutEdit_of_get? (get?_tell_of_text (d := ⟨p.print, d.name⟩) huri htext hanalysis)]
    exact Analysis.layoutEdit_of_print rfl (print_congr hsame)
  · exact (Program.check_congr hsame hg hf).reports _ _

theorem LaysOut.of_none (hnone : s.editor.layoutEdit d.name = none)
    (h : (∃ e, Program.parse d.text defaultLimit = .error e) ∨
      ∃ p, Program.parse d.text defaultLimit = .ok p ∧ p.print = d.text) : s.LaysOut d where
  none_iff := iff_of_true hnone h
  replaces edit hedit := by
    rw [hnone] at hedit
    cases hedit
  settles edit hedit := by
    rw [hnone] at hedit
    cases hedit

/-- A document without a run of digits that is too long is laid out once. -/
theorem lays_out (s : Server) (event : Event) {d : Document} (huri : event.uri = d.name)
    (htext : event.text? = some d.text) (hfew : FewDigits d.text.toList) :
    (s.tell event).LaysOut d := by
  cases hread : Program.parse d.text defaultLimit with
  | error e =>
    obtain ⟨fault, hfault⟩ := Option.isSome_iff_exists.1 (Program.parse_fault_isSome hfew hread)
    have hget := get?_tell_of_text (s := s) huri htext (Document.analyze_of_error hread hfault)
    exact .of_none ((layoutEdit_of_get? hget).trans (Analysis.layoutEdit_of_none rfl))
      (.inl ⟨e, hread⟩)
  | ok p =>
    obtain ⟨f, hf⟩ := Program.check_ok (parse_proper hread)
    have hanalysis := Document.analyze_of_ok hread hf
    have hget := layoutEdit_of_get? (get?_tell_of_text (s := s) huri htext hanalysis)
    by_cases hp : p.print = d.text
    · exact .of_none (hget.trans (Analysis.layoutEdit_of_print rfl hp)) (.inr ⟨p, hread, hp⟩)
    · obtain ⟨character, hedit⟩ := Analysis.layoutEdit_of_ne (a := ⟨d, some p, f.targets,
        f.diagnostics.map (·.report d)⟩) rfl hp
      have hsome := hget.trans hedit
      refine ⟨?_, ?_, ?_⟩
      · rw [hsome]
        refine iff_of_false nofun ?_
        rintro (⟨e, he⟩ | ⟨q, hq, hprint⟩)
        · rw [hread] at he
          cases he
        · rw [hread] at hq
          cases hq
          exact hp hprint
      · intro edit h
        rw [hsome] at h
        cases h
        exact ⟨p, hread, rfl, fun client => ⟨client.covers_of_lines d.text character,
          client.apply_of_lines _ d.text character rfl⟩⟩
      · intro edit h event' huri' htext'
        rw [hsome] at h
        cases h
        exact settles_of_analysis hread hf (shown?_tell_of_text huri htext hanalysis) huri' htext'

/-- A text that ends with a form feed and a carriage return. -/
def untidy : Document := ⟨"x=1;\x0c\r", "a.clb"⟩

theorem lays_out_untidy : FewDigits untidy.text.toList ∧
    (fresh.tell (.opened "a.clb" untidy.text)).LaysOut untidy ∧
    (fresh.tell (.opened "a.clb" untidy.text)).editor.layoutEdit "a.clb" =
      some ⟨⟨0, 0, 2, 0⟩, "x = 1;\n"⟩ ∧
    Client.protocol.apply ⟨⟨0, 0, 2, 0⟩, "x = 1;\n"⟩ untidy.text = "x = 1;\n" := by
  have hfew : FewDigits untidy.text.toList := fun ds hds _ =>
    Nat.le_trans hds.length_le (by decide)
  exact ⟨hfew, lays_out fresh _ rfl rfl hfew, by decide +kernel, by decide +kernel⟩

end Server

end Imp32
