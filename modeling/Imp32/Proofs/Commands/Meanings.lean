import Imp32.Proofs.Commands.Quiet

/-!
# What a command is about

The text, the program, the code and the path that a command works with, apart from the steps that
find them. A step that succeeds has found just this (`document_eq`, `parseDocument_eq_ok`,
`listing_eq_ok`, `outputPath_eq_ok`).
-/

namespace Imp32.Command

/-! ## The text of the program -/

/-- The text of the program that a command is given, unless it cannot be read. -/
def Invocation.source (i : Invocation) (around : Surroundings) (w : Workspace) :
    Except FileError Document :=
  match i.file, i.argument with
  | some file, _ => (w.read (.ofText file)).map fun text =>
    ⟨String.ofList (Text.withLineFeeds text.toList), (Path.ofText file).text⟩
  | none, some text => .ok ⟨text, "<argument>"⟩
  | none, none => around.input.read.map fun text =>
    ⟨inputText i.task text, Document.defaultName⟩

theorem orCrash_map {α β ε : Type} (cause : ε → Crash) (r : Except ε α) (f : α → β) (s : Session) :
    (Action.orCrash cause r >>= fun a => pure (f a)) s = Action.orCrash cause (r.map f) s := by
  cases r <;> rfl

theorem document_eq (around : Surroundings) (i : Invocation) (s : Session) :
    document around i s = Action.orCrash .file (i.source around s.workspace) s := by
  unfold document Invocation.source
  cases i.file with
  | some file => cases i.argument <;> exact orCrash_map _ _ _ _
  | none =>
    cases i.argument with
    | some text => rfl
    | none => exact orCrash_map _ _ _ _

theorem document_quiet (around : Surroundings) (i : Invocation) : Quiet (document around i) where
  ok h := by
    rw [document_eq] at h
    exact (Quiet.orCrash _ _).ok h
  error h := by
    rw [document_eq] at h
    exact (Quiet.orCrash _ _).error h

/-! ## The program -/

/-- What reading the text of a program gives under the limit that is set. A limit that is no number
does not matter as long as nothing is nested. -/
def ReadsAs (settings : Settings) (d : Document) (r : Except Failure Program) : Prop :=
  match settings.limit.levels? (d.text.length + 1) with
  | some limit => Program.parse d.text limit = r
  | none => Program.parse d.text 0 = r ∧ ∀ e, r = .error e → isTooDeep e = false

/-- These are the settings, the text and the program of an invocation. -/
structure Invocation.Reads (i : Invocation) (around : Surroundings) (w : Workspace)
    (settings : Settings) (d : Document) (p : Program) : Prop where
  settings_eq : w.settings w.here = .ok settings
  source_eq : i.source around w = .ok d
  program : ReadsAs settings d (.ok p)

section

variable {settings : Settings} {d : Document} {p : Program} {s s' : Session}

theorem refuse_ne_ok {α : Type} {a : α} (e : Failure) : refuse settings d e s ≠ .ok a s' := by
  unfold refuse
  cases settings.fault? e with
  | none => nofun
  | some fault =>
    intro h
    obtain ⟨_, _, _, hexit⟩ := bind_eq_ok.1 h
    cases hexit

theorem parseDocument_of_ok (h : ReadsAs settings d (.ok p)) :
    parseDocument settings d = pure p := by
  unfold ReadsAs at h
  unfold parseDocument
  cases hlimit : settings.limit.levels? (d.text.length + 1) with
  | some limit =>
    rw [hlimit] at h
    dsimp only at h ⊢
    rw [h]
  | none =>
    rw [hlimit] at h
    dsimp only at h ⊢
    rw [h.1]

theorem parseDocument_of_error {e : Failure} (h : ReadsAs settings d (.error e)) :
    parseDocument settings d = refuse settings d e := by
  unfold ReadsAs at h
  unfold parseDocument
  cases hlimit : settings.limit.levels? (d.text.length + 1) with
  | some limit =>
    rw [hlimit] at h
    dsimp only at h ⊢
    rw [h]
  | none =>
    rw [hlimit] at h
    dsimp only at h ⊢
    rw [h.1]
    dsimp only
    rw [h.2 e rfl, if_neg nofun]

theorem parseDocument_eq_ok (h : parseDocument settings d s = .ok p s') :
    ReadsAs settings d (.ok p) := by
  unfold ReadsAs
  unfold parseDocument at h
  cases hlimit : settings.limit.levels? (d.text.length + 1) with
  | some limit =>
    rw [hlimit] at h
    dsimp only at h ⊢
    cases hparse : Program.parse d.text limit with
    | ok q =>
      rw [hparse] at h
      cases h
      rfl
    | error e =>
      rw [hparse] at h
      exact absurd h (refuse_ne_ok e)
  | none =>
    rw [hlimit] at h
    dsimp only at h ⊢
    cases hparse : Program.parse d.text 0 with
    | ok q =>
      rw [hparse] at h
      cases h
      exact ⟨rfl, nofun⟩
    | error e =>
      rw [hparse] at h
      dsimp only at h
      split at h
      · cases h
      · exact absurd h (refuse_ne_ok e)

/-! ## The code -/

/-- The name of the target of code. -/
def targetName? (settings : Settings) (target : Option String) : Option String :=
  (given? target).or (if settings.target.isCompound then none else settings.target.text?)

/-- The target of code, if the name that counts is the name of one. -/
def target? (settings : Settings) (target : Option String) : Option Assembly.Target :=
  (targetName? settings target).bind Assembly.Target.ofName?

/-- The code of a program, if there are such a target and such a name for its beginning. -/
def code? (settings : Settings) (p : Program) (target entry : Option String) : Option String := do
  let t ← target? settings target
  let name ← (given? entry).or settings.entry.text?
  (p.compile t name).toOption

theorem chosen_eq_ok {option value : Option String} {set : Action String} {text : String}
    (hset : ∀ {text}, set s = .ok text s' → value = some text)
    (h : chosen option set s = .ok text s') : (given? option).or value = some text := by
  unfold chosen at h
  cases hgiven : given? option with
  | none =>
    rw [hgiven] at h
    exact hset h
  | some name =>
    rw [hgiven] at h
    cases h
    rfl

theorem settingText_eq_ok {v : Toml.Value} {text : String} (h : settingText v s = .ok text s') :
    v.text? = some text := by
  unfold settingText at h
  cases hv : v.text? with
  | none =>
    rw [hv] at h
    obtain ⟨_, _, _, hexit⟩ := bind_eq_ok.1 h
    cases hexit
  | some text' =>
    rw [hv] at h
    cases h
    rfl

theorem targetName_eq_ok {v : Toml.Value} {name : String} (h : targetName v s = .ok name s') :
    (if v.isCompound then none else v.text?) = some name := by
  unfold targetName at h
  split at h
  · cases h
  · rw [if_neg ‹_›, settingText_eq_ok h]

/-- Code that is made is the code of the program for the target that counts. -/
theorem listing_eq_ok {target entry : Option String} {code : String}
    (h : listing settings p target entry s = .ok code s') :
    code? settings p target entry = some code := by
  obtain ⟨name, s₁, hname, h⟩ := bind_eq_ok.1 h
  have hname : targetName? settings target = some name := chosen_eq_ok targetName_eq_ok hname
  unfold code? target?
  rw [hname, Option.bind_some]
  cases ht : Assembly.Target.ofName? name with
  | none =>
    rw [ht] at h
    obtain ⟨_, _, _, hexit⟩ := bind_eq_ok.1 h
    cases hexit
  | some t =>
    rw [ht] at h
    obtain ⟨start, s₂, hstart, h⟩ := bind_eq_ok.1 h
    have hstart : (given? entry).or settings.entry.text? = some start :=
      chosen_eq_ok settingText_eq_ok hstart
    obtain ⟨hcode, -⟩ := orCrash_eq_ok.1 h
    rw [hstart, Option.bind_eq_bind, Option.bind_some, Option.bind_eq_bind, Option.bind_some, hcode]
    rfl

/-! ## The program that is built -/

def binaryName? (settings : Settings) (output : Option String) : Option String :=
  match given? output, settings.output with
  | some text, _ | none, .string text => some text
  | none, _ => none

/-- The path of the program that is built is that of its name. -/
theorem outputPath_eq (settings : Settings) (output : Option String) :
    outputPath settings output = match binaryName? settings output with
      | some text => pure (.ofText text)
      | none => Action.crash .wrongKind := by
  unfold outputPath binaryName?
  cases given? output with
  | some name => rfl
  | none => cases settings.output <;> rfl

theorem outputPath_eq_ok {output : Option String} {path : Path}
    (h : outputPath settings output s = .ok path s') :
    ∃ text, binaryName? settings output = some text ∧ path = .ofText text := by
  rw [outputPath_eq] at h
  cases hname : binaryName? settings output with
  | none =>
    rw [hname] at h
    cases h
  | some text =>
    rw [hname] at h
    cases h
    exact ⟨text, rfl, rfl⟩

end

end Imp32.Command
