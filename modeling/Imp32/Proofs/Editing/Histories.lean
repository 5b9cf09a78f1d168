import Imp32.Editor.Server
import Imp32.Proofs.Editing.Analysis
import Mathlib.Data.List.Induction

/-!
# Histories of events

What a server answers about a document depends on the last text of the document only, whatever
else it was told before or of other documents (`Server.follows_last_text`). One event sets or
forgets what is known of its own document (`Server.tell_of_text`, `Server.tell_of_no_text`); by
induction on the history, what is known in the end is the analysis of the last text
(`Server.get?_run`), and what was published last is what that analysis reports (`Server.shown?_run`).

A text may fail to be analysed for its digits only. That a tree may be too high for the depth of the
calls of its analysis is left out, as everywhere but in `Imp32.Proofs.Heights`.
-/

namespace Imp32

/-! ## The last text -/

def Event.HasFewDigits (event : Event) : Prop :=
  ∀ text ∈ event.text?, FewDigits text.toList

/-- The text that a document was given last. -/
def lastText? (events : List Event) (uri : String) : Option String :=
  ((events.filter fun event => event.uri = uri).filterMap Event.text?).getLast?

/-- The text of a document that is open in the end. -/
def openText? (events : List Event) (uri : String) : Option String :=
  ((events.filter fun event => event.uri = uri).getLast?).bind Event.text?

section LastText

variable {events : List Event} {event : Event} {uri text : String}

theorem lastText?_append (events : List Event) (event : Event) (uri : String) :
    lastText? (events ++ [event]) uri =
      if event.uri = uri then event.text?.or (lastText? events uri) else lastText? events uri := by
  unfold lastText?
  split
  next h => cases htext : event.text? <;> simp [List.filter_append, h, htext]
  next h => simp [List.filter_append, h]

theorem openText?_append (events : List Event) (event : Event) (uri : String) :
    openText? (events ++ [event]) uri =
      if event.uri = uri then event.text? else openText? events uri := by
  unfold openText?
  split
  next h => simp [List.filter_append, h]
  next h => simp [List.filter_append, h]

/-- The last text came with an event. -/
theorem exists_event_of_lastText (h : lastText? events uri = some text) :
    ∃ event ∈ events, event.text? = some text := by
  obtain ⟨event, hevent, htext⟩ := List.mem_filterMap.1 (List.mem_of_getLast? h)
  exact ⟨event, (List.mem_filter.1 hevent).1, htext⟩

/-- A document that is open has the text that it was given last. -/
theorem lastText?_of_openText? (h : openText? events uri = some text) :
    lastText? events uri = some text := by
  induction events using List.reverseRecOn with
  | nil => cases h
  | append_singleton events event ih =>
    rw [openText?_append] at h
    rw [lastText?_append]
    split at h
    next huri => rw [if_pos huri, h, Option.some_or]
    next huri => rw [if_neg huri, ih h]

end LastText

/-! ## Answers -/

namespace Editor

/-- Both editors answer the same about a document. -/
structure AgreesOn (e e' : Editor) (uri : String) : Prop where
  hover : ∀ line character, e.hover uri line character = e'.hover uri line character
  definition : ∀ line character, e.definition uri line character = e'.definition uri line character
  completions : e.completions uri = e'.completions uri
  layoutEdit : e.layoutEdit uri = e'.layoutEdit uri

/-- The editor has nothing to say about a document and proposes the keywords only. -/
structure IsSilentOn (e : Editor) (uri : String) : Prop where
  hover : ∀ line character, e.hover uri line character = none
  definition : ∀ line character, e.definition uri line character = none
  completions : e.completions uri = keywordNotes.map fun pair => (pair.1, .keyword)
  layoutEdit : e.layoutEdit uri = none

variable {e e' : Editor} {uri : String}

/-- All answers come from what is known of the document. -/
theorem agreesOn_of_get?_eq (h : e.get? uri = e'.get? uri) : e.AgreesOn e' uri where
  hover line character := by unfold Editor.hover; rw [h]
  definition line character := by unfold Editor.definition; rw [h]
  completions := by unfold Editor.completions; rw [h]
  layoutEdit := by unfold Editor.layoutEdit; rw [h]

theorem isSilentOn_of_get?_eq_none (h : e.get? uri = none) : e.IsSilentOn uri where
  hover line character := by unfold Editor.hover; rw [h]; rfl
  definition line character := by unfold Editor.definition; rw [h]; rfl
  completions := by
    unfold Editor.completions
    rw [h]
    simp only [Option.map_none, Option.getD_none, List.mergeSort_nil, List.map_nil,
      List.append_nil]
  layoutEdit := by unfold Editor.layoutEdit; rw [h]; rfl

end Editor

/-! ## What one event does -/

/-- What is known of a document that is opened, if its text can be analysed. -/
def Document.analysis? (d : Document) : Option Analysis :=
  (d.analyze defaultLimit).toOption

theorem Document.exists_analysis? (d : Document) (h : FewDigits d.text.toList) :
    ∃ a, d.analyze defaultLimit = .ok a ∧ d.analysis? = some a := by
  obtain ⟨a, ha⟩ := d.exists_analysis h
  refine ⟨a, ha, ?_⟩
  unfold Document.analysis?
  rw [ha]
  rfl

namespace Editor

variable {event : Event} {text : String} {a : Analysis}

/-- A text is analysed, and what is found is kept and published. -/
theorem handle_of_text (htext : event.text? = some text)
    (ha : (⟨text, event.uri⟩ : Document).analyze defaultLimit = .ok a) (e : Editor) :
    e.handle event = .ok (some ⟨event.uri, a.reports⟩, e.set event.uri a) := by
  unfold handle update
  simp only [htext, ha]
  rfl

theorem handle_of_no_text (htext : event.text? = none) (e : Editor) :
    e.handle event = .ok (none, e.close event.uri) := by
  unfold handle
  simp only [htext]
  rfl

/-- An event is handled if its text has no run of digits that is too long. -/
theorem exists_handle (h : event.HasFewDigits) (e : Editor) :
    ∃ result, e.handle event = .ok result := by
  cases htext : event.text? with
  | none => exact ⟨_, handle_of_no_text htext e⟩
  | some text =>
    obtain ⟨a, ha⟩ := (⟨text, event.uri⟩ : Document).exists_analysis (h text htext)
    exact ⟨_, handle_of_text htext ha e⟩

end Editor

namespace Server

variable {s : Server} {event : Event} {events : List Event} {uri text : String} {a : Analysis}

theorem tell_of_text (htext : event.text? = some text)
    (ha : (⟨text, event.uri⟩ : Document).analyze defaultLimit = .ok a) :
    s.tell event = ⟨s.editor.set event.uri a, s.published ++ [⟨event.uri, a.reports⟩]⟩ := by
  unfold tell
  rw [Editor.handle_of_text htext ha]
  rfl

theorem shown?_append (e : Editor) (published : List Publication) (publication : Publication)
    (uri : String) : shown? ⟨e, published ++ [publication]⟩ uri =
      if publication.uri = uri then some publication.reports else shown? ⟨e, published⟩ uri := by
  unfold shown?
  split
  next h => simp [List.filter_append, h]
  next h => simp [List.filter_append, h]

/-- What is known of a document that has just been given its text. -/
theorem get?_tell_of_text {d : Document} (huri : event.uri = d.name)
    (htext : event.text? = some d.text) (ha : d.analyze defaultLimit = .ok a) :
    (s.tell event).editor.get? d.name = some a := by
  obtain ⟨text, uri⟩ := d
  subst huri
  rw [tell_of_text htext ha, Bindings.get?_set]
  exact if_pos rfl

/-- What is shown of a document that has just been given its text. -/
theorem shown?_tell_of_text {d : Document} (huri : event.uri = d.name)
    (htext : event.text? = some d.text) (ha : d.analyze defaultLimit = .ok a) :
    (s.tell event).shown? d.name = some a.reports := by
  obtain ⟨text, uri⟩ := d
  subst huri
  rw [tell_of_text htext ha, shown?_append]
  exact if_pos rfl

theorem tell_of_no_text (htext : event.text? = none) :
    s.tell event = ⟨s.editor.close event.uri, s.published⟩ := by
  unfold tell
  rw [Editor.handle_of_no_text htext]
  show (⟨_, s.published ++ []⟩ : Server) = _
  rw [List.append_nil]

/-- An event decides what is known of its document, and leaves the others alone. -/
theorem get?_tell (h : event.HasFewDigits) (s : Server) (uri : String) :
    (s.tell event).editor.get? uri =
      if event.uri = uri then event.text?.bind fun text => (⟨text, uri⟩ : Document).analysis?
      else s.editor.get? uri := by
  cases htext : event.text? with
  | none =>
    rw [tell_of_no_text htext]
    exact Bindings.get?_erase s.editor event.uri uri
  | some text =>
    obtain ⟨a, ha, hknown⟩ := (⟨text, event.uri⟩ : Document).exists_analysis? (h text htext)
    rw [tell_of_text htext ha, Bindings.get?_set]
    split
    next huri =>
      subst huri
      exact hknown.symm
    next huri => rfl

/-- An event that gives a text decides what is shown of its document, and leaves the others
alone. -/
theorem shown?_tell (h : event.HasFewDigits) (s : Server) (uri : String) :
    (s.tell event).shown? uri =
      if event.uri = uri then
        ((event.text?.bind fun text => (⟨text, uri⟩ : Document).analysis?).map Analysis.reports).or
          (s.shown? uri)
      else s.shown? uri := by
  cases htext : event.text? with
  | none =>
    rw [tell_of_no_text htext]
    exact (ite_self _).symm
  | some text =>
    obtain ⟨a, ha, hknown⟩ := (⟨text, event.uri⟩ : Document).exists_analysis? (h text htext)
    rw [tell_of_text htext ha, shown?_append]
    split
    next huri =>
      change event.uri = uri at huri
      subst huri
      rw [Option.bind_some, hknown, Option.map_some, Option.some_or]
    next huri => rfl

/-! ## Histories -/

theorem run_append (events : List Event) (event : Event) :
    run (events ++ [event]) = (run events).tell event :=
  List.foldl_append

/-- What is known of a document in the end is the analysis of the text that it is open with. -/
theorem get?_run (h : ∀ event ∈ events, event.HasFewDigits) (uri : String) :
    (run events).editor.get? uri =
      (openText? events uri).bind fun text => (⟨text, uri⟩ : Document).analysis? := by
  induction events using List.reverseRecOn with
  | nil => rfl
  | append_singleton events event ih =>
    obtain ⟨hevents, hevent⟩ := List.forall_mem_append.1 h
    rw [run_append, get?_tell (hevent event List.mem_cons_self), openText?_append, ih hevents]
    split <;> rfl

/-- What is shown of a document in the end is what the analysis of its last text reports. -/
theorem shown?_run (h : ∀ event ∈ events, event.HasFewDigits) (uri : String) :
    (run events).shown? uri = ((lastText? events uri).bind fun text =>
      (⟨text, uri⟩ : Document).analysis?).map Analysis.reports := by
  induction events using List.reverseRecOn with
  | nil => rfl
  | append_singleton events event ih =>
    obtain ⟨hevents, hevent⟩ := List.forall_mem_append.1 h
    have hevent := hevent event List.mem_cons_self
    rw [run_append, shown?_tell hevent, lastText?_append, ih hevents]
    split
    next huri =>
      cases htext : event.text? with
      | none => rfl
      | some text =>
        obtain ⟨a, -, hknown⟩ := (⟨text, uri⟩ : Document).exists_analysis? (hevent text htext)
        rw [Option.some_or, Option.bind_some, hknown, Option.map_some, Option.some_or]
    next huri => rfl

/-- About a document, a server that was told of the events does as one that was told of its last
text only. -/
structure FollowsLastText (events : List Event) (uri : String) : Prop where
  handled : ∀ event ∈ events, ∀ e : Editor, ∃ result, e.handle event = .ok result
  /-- The reports that were published last are those that a fresh server publishes. -/
  shown : ∀ text, lastText? events uri = some text → ∃ reports,
    (run events).shown? uri = some reports ∧ (run [.opened uri text]).shown? uri = some reports
  /-- An open document has its last text, and the answers are those of a fresh server. -/
  opened : ∀ text, openText? events uri = some text → lastText? events uri = some text ∧
    (run events).editor.AgreesOn (run [.opened uri text]).editor uri
  /-- Of a document that was closed last, or of which nothing was told, nothing is known. -/
  closed : openText? events uri = none → (run events).editor.IsSilentOn uri

/-- If no text has a run of digits that is too long, the history of a server does not matter but
for the last text of each document. -/
theorem follows_last_text {events : List Event} (h : ∀ event ∈ events, event.HasFewDigits)
    (uri : String) : FollowsLastText events uri := by
  have hfresh : ∀ text, lastText? events uri = some text →
      ∀ event ∈ [Event.opened uri text], event.HasFewDigits := by
    intro text htext event hevent t ht
    obtain ⟨source, hsource, hgiven⟩ := exists_event_of_lastText htext
    rw [List.mem_singleton.1 hevent] at ht
    obtain rfl : text = t := Option.some.inj ht
    exact h source hsource text hgiven
  have honly : ∀ text, openText? [.opened uri text] uri = some text ∧
      lastText? [.opened uri text] uri = some text := by
    intro text
    rw [← List.nil_append [Event.opened uri text], openText?_append, lastText?_append]
    exact ⟨if_pos rfl, if_pos rfl⟩
  refine ⟨fun event hevent e => e.exists_handle (h event hevent), ?_, ?_, ?_⟩
  · intro text htext
    obtain ⟨a, -, hknown⟩ := (⟨text, uri⟩ : Document).exists_analysis?
      (hfresh text htext _ List.mem_cons_self text rfl)
    rw [shown?_run h, shown?_run (hfresh text htext), htext, (honly text).2, Option.bind_some,
      hknown]
    exact ⟨a.reports, rfl, rfl⟩
  · intro text htext
    have hlast := lastText?_of_openText? htext
    refine ⟨hlast, Editor.agreesOn_of_get?_eq ?_⟩
    rw [get?_run h, get?_run (hfresh text hlast), htext, (honly text).1]
  · intro hnone
    apply Editor.isSilentOn_of_get?_eq_none
    rw [get?_run h, hnone]
    rfl

/-- Of two documents, one is no program at first and the other is closed. -/
def brokenFirst : List Event :=
  [.opened "a.clb" "x = ;", .opened "b.clb" "y;", .changed "a.clb" ["?", "x = 1;"], .closed "b.clb"]

theorem follows_last_text_brokenFirst : (∀ event ∈ brokenFirst, event.HasFewDigits) ∧
    openText? brokenFirst "a.clb" = some "x = 1;" ∧ FollowsLastText brokenFirst "a.clb" ∧
    openText? brokenFirst "b.clb" = none ∧ FollowsLastText brokenFirst "b.clb" := by
  have hshort : ∀ event ∈ brokenFirst, ∀ text ∈ event.text?, text.toList.length ≤ 4300 := by decide
  have hfew : ∀ event ∈ brokenFirst, event.HasFewDigits := fun event hevent text htext ds hds _ =>
    Nat.le_trans hds.length_le (hshort event hevent text htext)
  exact ⟨hfew, rfl, follows_last_text hfew _, rfl, follows_last_text hfew _⟩

end Server

end Imp32
