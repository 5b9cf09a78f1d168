import Imp32.Command.Perform
import Imp32.Proofs.Actions

/-!
# What a command does before it does anything

Up to the point where a command writes a file, starts a program or prints, its steps are quiet: they
read the workspace, they may say something beside the output, and if they end the command they end
it with code 1 (`Quiet`). Everything that reads a program or makes code of it is quiet
(`parseDocument_quiet`, `listing_quiet`, and `document_quiet` once the text has been named).
-/

namespace Imp32.Command

/-- The code that a command ends with. What breaks off ends with code 1, and what does not end has no
code. -/
def Ending.code? : Ending → Option Nat
  | exit code => some code
  | misuse => some 2
  | crash _ => some 1
  | outOfTurns | serving => none

def Ending.Fails (ending : Ending) : Prop :=
  ending.code? = some 1

/-- Nothing is different but what was said beside the output. -/
structure Leaves (s s' : Session) : Prop where
  workspace : s'.workspace = s.workspace
  output : s'.output = s.output
  started : s'.started = s.started

theorem Leaves.refl (s : Session) : Leaves s s := ⟨rfl, rfl, rfl⟩

theorem Leaves.trans {s s' s'' : Session} (h : Leaves s s') (h' : Leaves s' s'') : Leaves s s'' :=
  ⟨h'.workspace.trans h.workspace, h'.output.trans h.output, h'.started.trans h.started⟩

/-- The action leaves everything as it is, and if it ends the command, the command fails. -/
structure Quiet {α : Type} (action : Action α) : Prop where
  ok : ∀ {s a s'}, action s = .ok a s' → Leaves s s'
  error : ∀ {s ending s'}, action s = .error ending s' → Leaves s s' ∧ ending.Fails

namespace Quiet

variable {α β ε : Type} {x : Action α} {f : α → Action β}

protected theorem pure (a : α) : Quiet (pure a : Action α) where
  ok h := by cases h; exact .refl _
  error h := by cases h

protected theorem get : Quiet (get : Action Session) where
  ok h := by cases h; exact .refl _
  error h := by cases h

protected theorem say (line : String) : Quiet (Action.say line) where
  ok h := by cases h; exact ⟨rfl, rfl, rfl⟩
  error h := by cases h

protected theorem throw {ending : Ending} (h : ending.Fails) : Quiet (throw ending : Action α) where
  ok h := by cases h
  error h' := by cases h'; exact ⟨.refl _, h⟩

theorem exit : Quiet (Action.exit 1 : Action α) := .throw rfl

theorem crash (cause : Crash) : Quiet (Action.crash cause : Action α) := .throw rfl

protected theorem bind (hx : Quiet x) (hf : ∀ a, Quiet (f a)) : Quiet (x >>= f) where
  ok h := by
    obtain ⟨a, s₁, ha, hb⟩ := bind_eq_ok.1 h
    exact (hx.ok ha).trans ((hf a).ok hb)
  error h := by
    obtain he | ⟨a, s₁, ha, he⟩ := bind_eq_error.1 h
    · exact hx.error he
    · exact ((hf a).error he).imp_left (hx.ok ha).trans

theorem orCrash (cause : ε → Crash) (r : Except ε α) : Quiet (Action.orCrash cause r) := by
  cases r with
  | ok a => exact .pure a
  | error e => exact crash _

theorem ite {c : Prop} [Decidable c] {y : Action α} (hx : Quiet x) (hy : Quiet y) :
    Quiet (if c then x else y) := by
  split
  · exact hx
  · exact hy

theorem forM_list {as : List α} {f : α → Action PUnit} (h : ∀ a, Quiet (f a)) :
    Quiet (as.forM f) := by
  induction as with
  | nil => exact .pure _
  | cons a as ih => exact (h a).bind fun _ => ih

end Quiet

theorem orCrash_eq_ok {α ε : Type} {cause : ε → Crash} {r : Except ε α} {a : α} {s s' : Session} :
    Action.orCrash cause r s = .ok a s' ↔ r = .ok a ∧ s' = s := by
  cases r with
  | ok b =>
    refine pure_eq_ok.trans ⟨?_, ?_⟩
    · rintro ⟨rfl, rfl⟩
      exact ⟨rfl, rfl⟩
    · rintro ⟨⟨⟩, rfl⟩
      exact ⟨rfl, rfl⟩
  | error e => exact iff_of_false nofun nofun

/-! ## The steps of commands -/

section Steps

variable {settings : Settings} {d : Document}

theorem refuse_quiet {α : Type} (e : Failure) : Quiet (refuse settings d e : Action α) := by
  unfold refuse
  split
  · exact .bind (.say _) fun _ => .exit
  · exact .crash _

theorem parseDocument_quiet : Quiet (parseDocument settings d) := by
  unfold parseDocument
  split
  · split
    · exact .pure _
    · exact refuse_quiet _
  · split
    · exact .pure _
    · exact .ite (.crash _) (refuse_quiet _)

theorem settingText_quiet (v : Toml.Value) : Quiet (settingText v) := by
  unfold settingText
  split
  · exact .pure _
  · exact .bind (.say _) fun _ => .exit

theorem chosen_quiet {option : Option String} {set : Action String} (h : Quiet set) :
    Quiet (chosen option set) := by
  unfold chosen
  split
  · exact .pure _
  · exact h

theorem targetName_quiet (v : Toml.Value) : Quiet (targetName v) :=
  .ite (.crash _) (settingText_quiet v)

/-- Making code of a program is quiet. -/
theorem listing_quiet (p : Program) (target entry : Option String) :
    Quiet (listing settings p target entry) := by
  refine .bind (chosen_quiet (targetName_quiet _)) fun name => ?_
  split
  · exact .bind (.say _) fun _ => .exit
  · exact .bind (chosen_quiet (settingText_quiet _)) fun _ => .orCrash _ _

theorem outputPath_quiet (output : Option String) : Quiet (outputPath settings output) := by
  unfold outputPath
  split
  · exact .pure _
  · exact .pure _
  · exact .crash _

end Steps

end Imp32.Command
