import Imp32.Command.Line
import Imp32.Proofs.Commands.Tasks

/-!
# What commands do and leave undone

A command that refuses its program, since the text is no program, its run fails or its target is not
known, ends with code 1, prints nothing and changes no file (`Refused.ends`). Whatever becomes of a
command, it accounts for what it changes (`accounts`), so that it is known of every command line,
however it is read, which part of its effects it has (`outcome_effects`). A part is missing where
there are no bytes for a text or where an assembler that has done its work says what is no text.
-/

namespace Imp32.Command

/-! ## Whole commands -/

/-- What a task does with a program that has been read. -/
def Invocation.act (i : Invocation) (around : Surroundings) (settings : Settings) (d : Document)
    (p : Program) : Action Unit :=
  match i.task with
  | .run => run around settings d p
  | .compile output target entry => compile around settings p output target entry
  | .build output target entry => build around settings p output target entry
  | .check => check around settings d p
  | .format onlyCheck => format around d p i.file onlyCheck
  | .view _ => viewOutline around p

section Commands

variable {around : Surroundings} {i : Invocation} {w : Workspace} {s : Session}
  {P : Ending → Session → Prop}

section Perform

-- how a command ends that fails early, that prints tokens, and that reads its program
variable (hfails : ∀ ending s', Leaves (.start w) s' → ending.Fails → P ending s')
  (htokens : i.task = .view true → ∀ settings d s', w.settings w.here = .ok settings →
    i.source around w = .ok d → Leaves (.start w) s' → (viewTokens around settings d).Ends s' P)
  (hprogram : i.task ≠ .view true → ∀ settings d s', w.settings w.here = .ok settings →
    i.source around w = .ok d → Leaves (.start w) s' →
      (parseDocument settings d >>= i.act around settings d).Ends s' P)

include hfails htokens hprogram

/-- A command that does not fail before has its settings and its text, and goes on with them. -/
theorem perform_ends (hs : Leaves (.start w) s) : (perform around i).Ends s P := by
  have hw : s.workspace = w := hs.workspace
  refine Quiet.get.ends_bind (fun ending s' hs' => hfails ending s' (hs.trans hs'))
    fun a s₁ ha hs₁ => ?_
  cases ha
  refine (Quiet.orCrash _ _).ends_bind (fun ending s' hs' => hfails ending s' (hs.trans hs'))
    fun settings s₁ hsettings hs₁ => ?_
  have hs₁ := hs.trans hs₁
  refine (document_quiet _ _).ends_bind (fun ending s' hs' => hfails ending s' (hs₁.trans hs'))
    fun d s₂ hd hs₂ => ?_
  have hs₂ := hs₁.trans hs₂
  rw [hw] at hsettings
  rw [document_eq, hs₁.workspace] at hd
  obtain ⟨hsettings, -⟩ := orCrash_eq_ok.1 hsettings
  obtain ⟨hsource, -⟩ := orCrash_eq_ok.1 hd
  have hact : i.task ≠ .view true →
      (parseDocument settings d >>= i.act around settings d).Ends s₂ P :=
    fun htask => hprogram htask settings d s₂ hsettings hsource hs₂
  unfold Invocation.act at hact
  cases htask : i.task with
  | view tokens =>
    rw [htask] at hact
    cases tokens with
    | true => exact htokens htask settings d s₂ hsettings hsource hs₂
    | false => exact hact nofun
  | _ =>
    rw [htask] at hact
    exact hact nofun

end Perform

/-! ## Accounts -/

theorem act_ends {settings : Settings} {d : Document} {p : Program}
    (hreads : i.Reads around w settings d p) (hs : Leaves (.start w) s) :
    (i.act around settings d p).Ends s (Accounts around i w) := by
  unfold Invocation.act
  cases htask : i.task with
  | run =>
    refine run_ends ?_ hs
    rw [htask]
    trivial
  | compile output target entry => exact compile_ends hreads hs htask
  | build output target entry => exact build_ends hreads hs htask
  | check =>
    refine check_ends ?_ hs
    rw [htask]
    trivial
  | format onlyCheck => exact format_ends hreads hs htask
  | view tokens => exact viewOutline_ends htask hs

theorem accounts (around : Surroundings) (i : Invocation) (w : Workspace) :
    (perform around i).Ends (.start w) (Accounts around i w) := by
  refine perform_ends (fun _ _ hs' => accounts_of_fails hs') ?_ ?_ (.refl _)
  · intro htask settings d s' _ _ hs'
    exact viewTokens_ends htask hs'
  · intro _ settings d s' hsettings hsource hs'
    exact parseDocument_quiet.ends_bind (fun _ _ hs'' => accounts_of_fails (hs'.trans hs''))
      fun p s'' hp hs'' => act_ends ⟨hsettings, hsource, parseDocument_eq_ok hp⟩ (hs'.trans hs'')

end Commands

/-! ## Refusals -/

/-- Why a command refuses to go on. -/
inductive Refused (around : Surroundings) (i : Invocation) (w : Workspace) : Prop
  /-- The text is not made of tokens. -/
  | tokens {settings : Settings} {d : Document} {e : LexError} :
    i.task = .view true → w.settings w.here = .ok settings → i.source around w = .ok d →
      tokens d.text = .error e → Refused around i w
  /-- The text is no program. -/
  | program {settings : Settings} {d : Document} {e : Failure} :
    i.task ≠ .view true → w.settings w.here = .ok settings → i.source around w = .ok d →
      ReadsAs settings d (.error e) → Refused around i w
  /-- The run of the program fails. -/
  | run {settings : Settings} {d : Document} {p : Program} {e : EvalError} {env : Env} :
    i.task = .run → w.settings w.here = .ok settings → i.source around w = .ok d →
      ReadsAs settings d (.ok p) → p.eval around.turns = .error (.error e) env → Refused around i w
  /-- There is no such target under the settings, if they can be read. -/
  | target {output target entry : Option String} :
    i.task = .compile output target entry ∨ i.task = .build output target entry →
      (∀ settings, w.settings w.here = .ok settings → target? settings target = none) →
        Refused around i w

section Refused

variable {around : Surroundings} {i : Invocation} {w : Workspace} {settings : Settings}
  {d : Document}

/-- Code for a target that is not known is not made. -/
theorem listing_unknown {P : Ending → Session → Prop} {p : Program}
    {target entry : Option String} {s : Session} {f : String → Action Unit}
    (hunknown : target? settings target = none)
    (hfails : ∀ ending s', Leaves s s' → ending.Fails → P ending s') :
    (listing settings p target entry >>= f).Ends s P := by
  refine (listing_quiet p target entry).ends_bind hfails fun code s' hcode _ => ?_
  have hcode := listing_eq_ok hcode
  unfold code? at hcode
  rw [hunknown] at hcode
  cases hcode

theorem Leaves.fails {s s' : Session} (hs : Leaves s s') :
    ∀ (ending : Ending) s'', Leaves s' s'' → ending.Fails → Leaves s s'' ∧ ending.Fails :=
  fun _ _ hs' hfails => ⟨hs.trans hs', hfails⟩

/-- Who refuses to go on fails before anything has been done. -/
theorem Refused.ends (h : Refused around i w) :
    (perform around i).Ends (.start w) fun ending s => Leaves (.start w) s ∧ ending.Fails := by
  cases h with
  | tokens htask hsettings hsource he =>
    refine perform_ends (fun _ _ => And.intro) ?_ (fun hnot => absurd htask hnot) (.refl _)
    intro _ settings' d' s hsettings' hsource' hs
    cases hsettings.symm.trans hsettings'
    cases hsource.symm.trans hsource'
    unfold viewTokens
    rw [he]
    exact refuse_ends _ hs.fails
  | program htask hsettings hsource he =>
    refine perform_ends (fun _ _ => And.intro) (fun hview => absurd hview htask) ?_ (.refl _)
    intro _ settings' d' s hsettings' hsource' hs
    cases hsettings.symm.trans hsettings'
    cases hsource.symm.trans hsource'
    rw [parseDocument_of_error he]
    exact refuse_bind_ends _ hs.fails
  | run htask hsettings hsource hp he =>
    refine perform_ends (fun _ _ => And.intro) (fun hview => ?_) ?_ (.refl _)
    · cases htask.symm.trans hview
    · intro _ settings' d' s hsettings' hsource' hs
      cases hsettings.symm.trans hsettings'
      cases hsource.symm.trans hsource'
      rw [parseDocument_of_ok hp]
      show (Invocation.act _ _ _ _ _).Ends s _
      unfold Invocation.act
      rw [htask]
      show (Command.run _ _ _ _).Ends s _
      unfold Command.run
      rw [he]
      exact refuse_ends _ hs.fails
  | target htask hunknown =>
    refine perform_ends (fun _ _ => And.intro) (fun hview => ?_) ?_ (.refl _)
    · rw [hview] at htask
      obtain htask | htask := htask <;> cases htask
    · intro _ settings' d' s hsettings' hsource' hs
      have hunknown := hunknown settings' hsettings'
      refine parseDocument_quiet.ends_bind hs.fails fun p s₁ _ hs₁ => ?_
      unfold Invocation.act
      obtain htask | htask := htask
      · rw [htask]
        exact listing_unknown hunknown (hs.trans hs₁).fails
      · rw [htask]
        exact listing_unknown hunknown (hs.trans hs₁).fails

end Refused

/-! ## Command lines -/

/-- What a command does and leaves undone. -/
structure Effects (around : Surroundings) (i : Invocation) (w : Workspace) (ending : Ending)
    (s : Session) : Prop extends Accounts around i w ending s where
  /-- A command whose program is refused fails without doing anything. -/
  refuses : Refused around i w → ending.code? = some 1 ∧ s.output = "" ∧ s.workspace = w

/-- Whatever the files, the input, the settings, the encodings and the outside command are like, and
however command lines are read, this is what is left of a command that is performed. -/
theorem outcome_effects {reader : Reader} {arguments : List String} {w : Workspace}
    {i : Invocation} (around : Surroundings) (h : reader arguments w = .perform i) :
    Effects around i w (outcome reader around arguments w).1
      (outcome reader around arguments w).2 := by
  unfold outcome
  rw [h]
  refine ⟨outcome_of_ends (accounts around i w), fun hrefused => ?_⟩
  obtain ⟨hs, hcode⟩ := outcome_of_ends hrefused.ends
  exact ⟨hcode, hs.output, hs.workspace⟩

/-- A program is built for a target that there is not, and for one that there is by an assembler that
ends with code 0 but says what is no text. -/
theorem outcome_effects_bytes :
    let w : Workspace := { files := [(["a.out.s"], .text "old")], folders := [], here := [] }
    let around : Surroundings := ⟨.text "", ⟨["gcc"], .ended 0 .bytes⟩, 0, .full, .full⟩
    ∃ refused broken, refused = outcome readLine around ["build", "--target", "mips", "1;"] w ∧
      broken = outcome readLine around ["build", "1;"] w ∧
      (refused.1.code? = some 1 ∧ refused.2.output = "" ∧ refused.2.workspace = w) ∧
      broken.1 ≠ .exit 0 ∧ broken.2.output = "" := by
  intro w around
  have hrefused : readLine ["build", "--target", "mips", "1;"] w =
      .perform ⟨.build none (some "mips") none, none, some "1;"⟩ := by decide +kernel
  have hunknown : Assembly.Target.ofName? "mips" = none := by decide
  have hbroken : readLine ["build", "1;"] w =
      .perform ⟨.build none none none, none, some "1;"⟩ := by decide +kernel
  have effects := outcome_effects around hbroken
  have hexit : (outcome readLine around ["build", "1;"] w).1 ≠ .exit 0 := by
    obtain ⟨-, hexit⟩ | ⟨_, _, _, _, _, _, -, -, -, -, -, -, hexit⟩ :=
      effects.builds none none none rfl
    · exact hexit
    · intro hzero
      obtain ⟨-, -, ⟨_, hresult⟩, -⟩ := hexit.1 hzero
      cases hresult
  exact ⟨_, _, rfl, rfl,
    (outcome_effects around hrefused).refuses (.target (.inr rfl) fun _ _ => hunknown),
    hexit, effects.prints hexit nofun nofun⟩

end Imp32.Command
