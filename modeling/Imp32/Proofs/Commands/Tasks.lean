import Imp32.Proofs.Commands.Meanings

/-!
# What tasks change

Of what a task does with a program that has been read, the last step is the only one that is not
quiet: it prints, or it writes a file and then says so, and a build runs a command behind it. So a
task changes at most the one file that it is there to write (`Accounts`, shown for one task after
the other). It ends with code 0 just if nothing went wrong from then on, and what may go wrong is
that there are no bytes for a text or that the outside command fails or says what is no text.
-/

namespace Imp32.Command

/-! ## How actions end -/

/-- How the action ends if it is all that is left of a command. -/
def Action.Ends (action : Action Unit) (s : Session) (P : Ending → Session → Prop) : Prop :=
  match action s with
  | .ok () s' => P (.exit 0) s'
  | .error ending s' => P ending s'

section Ends

variable {α : Type} {x : Action α} {f : α → Action Unit} {action : Action Unit} {s : Session}
  {P : Ending → Session → Prop}

theorem outcome_of_ends {w : Workspace} (h : action.Ends (.start w) P) :
    P (action.outcome w).1 (action.outcome w).2 := by
  unfold Action.Ends at h
  unfold Action.outcome
  split at h <;> simp_all

/-- Behind a quiet step it matters how the rest ends. -/
theorem Quiet.ends_bind (hx : Quiet x)
    (herror : ∀ ending s', Leaves s s' → ending.Fails → P ending s')
    (hok : ∀ a s', x s = .ok a s' → Leaves s s' → (f a).Ends s' P) : (x >>= f).Ends s P := by
  cases h : x s with
  | ok a s' =>
    unfold Action.Ends
    rw [bind_of_ok h]
    exact hok a s' h (hx.ok h)
  | error ending s' =>
    unfold Action.Ends
    rw [bind_of_error h]
    exact herror ending s' (hx.error h).1 (hx.error h).2

theorem ends_modify {g : Session → Session} {f : Unit → Action Unit} (h : (f ()).Ends (g s) P) :
    (modify g >>= f).Ends s P :=
  h

theorem ends_ite {c : Prop} [Decidable c] {x y : Action Unit} (hx : c → x.Ends s P)
    (hy : ¬c → y.Ends s P) : (if c then x else y).Ends s P := by
  split
  · exact hx ‹c›
  · exact hy ‹¬c›

/-- A refusal ends the command. -/
theorem refuse_bind_ends {settings : Settings} {d : Document} (e : Failure)
    (h : ∀ ending s', Leaves s s' → ending.Fails → P ending s') :
    ((refuse settings d e : Action α) >>= f).Ends s P :=
  (refuse_quiet e).ends_bind h fun _ _ hok _ => absurd hok (refuse_ne_ok e)

theorem refuse_ends {settings : Settings} {d : Document} (e : Failure)
    (h : ∀ ending s', Leaves s s' → ending.Fails → P ending s') :
    (refuse settings d e).Ends s P := by
  unfold refuse
  split
  · exact (Quiet.say _).ends_bind h fun _ s' _ hs' => h (.exit 1) s' hs' rfl
  · exact h _ s (.refl s) rfl

end Ends

/-! ## The files that commands write -/

/-- The invocation is of a kind that writes no file. -/
def Invocation.ReadsOnly (i : Invocation) : Prop :=
  match i.task with
  | .run | .check | .view _ | .format true => True
  | .format false => i.file = none
  | .compile output _ _ => output = none
  | .build _ _ _ => False

/-- What is left of the text is in the file at the path, and nothing else is different. -/
def Wrote (files : Encoding) (w : Workspace) (path : Path) (text : String) (w' : Workspace) :
    Prop :=
  ∃ place, w.writable path = .ok place ∧ w' = w.put place (files.written text)

/-- What a command has changed that ends so. -/
structure Accounts (around : Surroundings) (i : Invocation) (w : Workspace) (ending : Ending)
    (s : Session) : Prop where
  /-- Unless all went well nothing is printed, but for the finding that a layout is not right and
  the lines of a view. -/
  prints : ending ≠ .exit 0 → i.task ≠ .format true → (∀ tokens, i.task ≠ .view tokens) →
    s.output = ""
  reads : i.ReadsOnly → s.workspace = w
  /-- The file gets the code, and is left empty just if there are no bytes for it. -/
  compiles : ∀ file target entry, i.task = .compile (some file) target entry →
    (s.workspace = w ∧ ending ≠ .exit 0) ∨
      ∃ settings d p code, i.Reads around w settings d p ∧
        code? settings p target entry = some code ∧
        Wrote around.files w (.ofText file) code s.workspace ∧
        (ending = .exit 0 ↔ around.files.takes code)
  /-- The file gets the layout, and is left empty just if there are no bytes for it. -/
  formats : ∀ file, i.task = .format false → i.file = some file →
    s.workspace = w ∨
      ∃ settings d p, i.Reads around w settings d p ∧
        Wrote around.files w (.ofText file) p.print s.workspace ∧
        (ending = .exit 0 ↔ around.files.takes p.print ∧
          around.output.takes (formattedLine file ++ "\n"))
  /-- The file beside the program gets the code, and the rest is up to the outside command. -/
  builds : ∀ output target entry, i.task = .build output target entry →
    (s.workspace = w ∧ ending ≠ .exit 0) ∨
      ∃ settings d p code name listing, i.Reads around w settings d p ∧
        code? settings p target entry = some code ∧
        binaryName? settings output = some name ∧
        (Path.ofText name).withSuffix? ".s" = some listing ∧
        listing.text = (Path.ofText name).text ++ ".s" ∧
        Wrote around.files w listing code s.workspace ∧
        (ending = .exit 0 ↔ around.files.takes code ∧ s.started.isSome ∧
          (∃ messages, around.tools.result = .ended 0 (.text messages)) ∧
          around.output.takes (builtLine (.ofText name) ++ "\n"))

section Accounts

variable {around : Surroundings} {i : Invocation} {w : Workspace} {ending : Ending} {s s' : Session}
  {settings : Settings} {d : Document} {p : Program}

theorem Ending.Fails.ne_exit (h : ending.Fails) : ending ≠ .exit 0 := by
  rintro rfl
  cases h

/-- A command that fails before it has done anything has changed nothing. -/
theorem accounts_of_fails (hs : Leaves (.start w) s) (h : ending.Fails) :
    Accounts around i w ending s where
  prints _ _ _ := hs.output
  reads _ := hs.workspace
  compiles _ _ _ _ := .inl ⟨hs.workspace, h.ne_exit⟩
  formats _ _ _ := .inl hs.workspace
  builds _ _ _ _ := .inl ⟨hs.workspace, h.ne_exit⟩

/-- The task writes no file unless it is there to lay one out. -/
def Task.WritesNoCode : Task → Prop
  | build _ _ _ | compile (some _) _ _ => False
  | _ => True

/-- A command that ends without writing and is not there to write code. -/
theorem accounts_of_unchanged (hi : i.task.WritesNoCode) (hs : s.workspace = w)
    (hprints : ending ≠ .exit 0 → i.task ≠ .format true → (∀ tokens, i.task ≠ .view tokens) →
      s.output = "") : Accounts around i w ending s where
  prints := hprints
  reads _ := hs
  compiles _ _ _ h := by
    rw [h] at hi
    exact False.elim hi
  formats _ _ _ := .inl hs
  builds _ _ _ h := by
    rw [h] at hi
    exact False.elim hi

section Written

variable {file name code : String} {listing : Path} {output target entry : Option String}
  (hreads : i.Reads around w settings d p)

include hreads

/-- A command that is there to compile to a file and has written it. -/
theorem accounts_of_compiled (hi : i.task = .compile (some file) target entry)
    (hcode : code? settings p target entry = some code) (hprints : s.output = "")
    (hwrote : Wrote around.files w (.ofText file) code s.workspace)
    (hexit : ending = .exit 0 ↔ around.files.takes code) : Accounts around i w ending s where
  prints _ _ _ := hprints
  reads honly := by
    unfold Invocation.ReadsOnly at honly
    rw [hi] at honly
    cases honly
  compiles _ _ _ h := by
    cases hi.symm.trans h
    exact .inr ⟨settings, d, p, code, hreads, hcode, hwrote, hexit⟩
  formats _ h := by cases hi.symm.trans h
  builds _ _ _ h := by cases hi.symm.trans h

/-- A command that is there to lay a file out and has written it. -/
theorem accounts_of_formatted (hi : i.task = .format false) (hfile : i.file = some file)
    (hprints : ending ≠ .exit 0 → s.output = "")
    (hwrote : Wrote around.files w (.ofText file) p.print s.workspace)
    (hexit : ending = .exit 0 ↔
      around.files.takes p.print ∧ around.output.takes (formattedLine file ++ "\n")) :
    Accounts around i w ending s where
  prints h _ _ := hprints h
  reads honly := by
    unfold Invocation.ReadsOnly at honly
    rw [hi, hfile] at honly
    cases honly
  compiles _ _ _ h := by cases hi.symm.trans h
  formats _ _ h := by
    cases hfile.symm.trans h
    exact .inr ⟨settings, d, p, hreads, hwrote, hexit⟩
  builds _ _ _ h := by cases hi.symm.trans h

/-- A command that is there to build a program and has written the code of it. -/
theorem accounts_of_built (hi : i.task = .build output target entry)
    (hcode : code? settings p target entry = some code)
    (hname : binaryName? settings output = some name)
    (hlisting : (Path.ofText name).withSuffix? ".s" = some listing)
    (hprints : ending ≠ .exit 0 → s.output = "")
    (hwrote : Wrote around.files w listing code s.workspace)
    (hexit : ending = .exit 0 ↔ around.files.takes code ∧ s.started.isSome ∧
      (∃ messages, around.tools.result = .ended 0 (.text messages)) ∧
      around.output.takes (builtLine (.ofText name) ++ "\n")) : Accounts around i w ending s where
  prints h _ _ := hprints h
  reads honly := by
    unfold Invocation.ReadsOnly at honly
    rw [hi] at honly
    cases honly
  compiles _ _ _ h := by cases hi.symm.trans h
  formats _ h := by cases hi.symm.trans h
  builds _ _ _ h := by
    cases hi.symm.trans h
    exact .inr ⟨settings, d, p, code, name, listing, hreads, hcode, hname, hlisting,
      Path.text_of_withSuffix? hlisting, hwrote, hexit⟩

end Written

/-! ## The tasks -/

section Steps

variable {P : Ending → Session → Prop} {text : String}

theorem print_of_takes (h : around.output.takes text = true) :
    Action.print around text s = .ok () { s with output := s.output ++ text } := by
  unfold Action.print
  rw [if_pos h]
  rfl

theorem print_of_not_takes (h : around.output.takes text = false) :
    Action.print around text s = .error (.crash .encoding) s := by
  unfold Action.print
  rw [h, if_neg nofun]
  rfl

/-- A text is printed, or the command breaks off. -/
theorem print_ends (hlost : around.output.takes text = false → P (.crash .encoding) s)
    (hok : around.output.takes text = true → P (.exit 0) { s with output := s.output ++ text }) :
    (Action.print around text).Ends s P := by
  unfold Action.Ends
  cases htakes : around.output.takes text with
  | false =>
    rw [print_of_not_takes htakes]
    exact hlost htakes
  | true =>
    rw [print_of_takes htakes]
    exact hok htakes

theorem printLines_ends (lines : List String) {s : Session}
    (h : ∀ ending output, P ending { s with output := output }) :
    (lines.forM (Action.printLine around)).Ends s P := by
  induction lines generalizing s with
  | nil => exact h _ _
  | cons line lines ih =>
    show (Action.print around (line ++ "\n") >>= fun _ =>
      lines.forM (Action.printLine around)).Ends s P
    cases htakes : around.output.takes (line ++ "\n") with
    | false =>
      unfold Action.Ends
      rw [bind_of_error (print_of_not_takes htakes)]
      exact h _ s.output
    | true =>
      unfold Action.Ends
      rw [bind_of_ok (print_of_takes htakes)]
      exact ih fun _ _ => h _ _

/-- A file is written, or the command breaks off, having left the file alone or empty. -/
theorem write_ends {path : Path} {f : Unit → Action Unit} (hs : s.workspace = w)
    (hclosed : ∀ e, P (.crash (.file e)) s)
    (hlost : ∀ w', Wrote around.files w path text w' → around.files.takes text = false →
      P (.crash .encoding) { s with workspace := w' })
    (hok : ∀ w', Wrote around.files w path text w' → around.files.takes text = true →
      (f ()).Ends { s with workspace := w' } P) :
    (Action.write around path text >>= f).Ends s P := by
  subst hs
  cases hplace : s.workspace.writable path with
  | error e =>
    have hcrash : Action.write around path text s = .error (.crash (.file e)) s := by
      refine (bind_of_ok rfl).trans (bind_of_error ?_)
      rw [hplace]
      rfl
    unfold Action.Ends
    rw [bind_of_error hcrash]
    exact hclosed e
  | ok place =>
    have hopened : Action.orCrash Crash.file (s.workspace.writable path) s = .ok place s := by
      rw [hplace]
      rfl
    have hwrote : Wrote around.files s.workspace path text
        (s.workspace.put place (around.files.written text)) := ⟨place, hplace, rfl⟩
    unfold Encoding.written at hwrote
    cases htakes : around.files.takes text with
    | false =>
      have hcrash : Action.write around path text s =
          .error (.crash .encoding) { s with workspace := s.workspace.put place "" } := by
        refine (bind_of_ok rfl).trans ((bind_of_ok hopened).trans ((bind_of_ok rfl).trans ?_))
        rw [htakes]
        rfl
      unfold Action.Ends
      rw [bind_of_error hcrash]
      rw [htakes] at hwrote
      exact hlost _ hwrote htakes
    | true =>
      have hdone : Action.write around path text s =
          .ok () { s with workspace := s.workspace.put place text } := by
        refine (bind_of_ok rfl).trans ((bind_of_ok hopened).trans ((bind_of_ok rfl).trans ?_))
        rw [htakes, ← s.workspace.put_put place "" text]
        rfl
      unfold Action.Ends
      rw [bind_of_ok hdone]
      rw [htakes] at hwrote
      exact hok _ hwrote htakes

end Steps

section Unchanging

variable (hi : i.task.WritesNoCode) (hs : Leaves (.start w) s)

include hi hs

theorem printed_ends {text : String} :
    (Action.print around text).Ends s (Accounts around i w) :=
  print_ends (fun _ => accounts_of_unchanged hi hs.workspace fun _ _ _ => hs.output)
    fun _ => accounts_of_unchanged hi hs.workspace fun hexit => absurd rfl hexit

theorem run_ends : (run around settings d p).Ends s (Accounts around i w) := by
  unfold run
  split
  · exact printed_ends hi hs
  · exact refuse_ends _ fun _ _ hs' => accounts_of_fails (hs.trans hs')
  · exact accounts_of_unchanged hi hs.workspace fun _ _ _ => hs.output

theorem check_ends : (check around settings d p).Ends s (Accounts around i w) := by
  refine (Quiet.orCrash _ _).ends_bind (fun _ _ hs' => accounts_of_fails (hs.trans hs'))
    fun found s₁ _ hs₁ => ?_
  have hs₁ := hs.trans hs₁
  refine (Quiet.forM_list fun _ => .say _).ends_bind
    (fun _ _ hs' => accounts_of_fails (hs₁.trans hs')) fun _ s₂ _ hs₂ => ?_
  have hs₂ := hs₁.trans hs₂
  refine ends_ite (fun _ => ?_) fun _ => ?_
  · exact Quiet.exit.ends_bind (fun _ _ hs' => accounts_of_fails (hs₂.trans hs')) nofun
  · exact ends_ite (fun _ => printed_ends hi hs₂) fun _ => printed_ends hi hs₂

end Unchanging

section View

variable {tokens : Bool} (hi : i.task = .view tokens) (hs : Leaves (.start w) s)

include hi hs

/-- A view leaves all files alone, whatever it prints. -/
theorem viewed (output : String) : Accounts around i w ending { s with output := output } := by
  refine accounts_of_unchanged ?_ hs.workspace fun _ _ hview => absurd hi (hview _)
  rw [hi]
  trivial

theorem viewTokens_ends : (viewTokens around settings d).Ends s (Accounts around i w) := by
  unfold viewTokens
  split
  · exact refuse_ends _ fun _ _ hs' => accounts_of_fails (hs.trans hs')
  · rename_i ts _
    have hlines : (ts.forM fun token => Action.printLine around (tokenLine 12 token)) =
        (ts.map (tokenLine 12)).forM (Action.printLine around) := by
      rw [List.forM_eq_forM, List.forM_eq_forM, List.forM_map]
    rw [hlines]
    exact printLines_ends _ fun _ _ => viewed hi hs _

theorem viewOutline_ends : (viewOutline around p).Ends s (Accounts around i w) :=
  printLines_ends _ fun _ _ => viewed hi hs _

end View

section Writing

variable (hreads : i.Reads around w settings d p) (hs : Leaves (.start w) s)

include hreads hs

theorem compile_ends {output target entry : Option String}
    (hi : i.task = .compile output target entry) :
    (compile around settings p output target entry).Ends s (Accounts around i w) := by
  refine (listing_quiet _ _ _).ends_bind (fun _ _ hs' => accounts_of_fails (hs.trans hs'))
    fun code s₁ hcode hs₁ => ?_
  have hs₁ := hs.trans hs₁
  have hcode := listing_eq_ok hcode
  cases output with
  | none =>
    refine printed_ends ?_ hs₁
    rw [hi]
    trivial
  | some file =>
    refine write_ends hs₁.workspace (fun _ => accounts_of_fails hs₁ rfl)
      (fun w' hw' hlost => accounts_of_compiled hreads hi hcode hs₁.output hw' ?_)
      fun w' hw' hok => ?_
    · rw [hlost]
      exact iff_of_false nofun nofun
    · exact accounts_of_compiled hreads hi hcode hs₁.output hw' (iff_of_true rfl hok)

theorem format_ends {onlyCheck : Bool} (hi : i.task = .format onlyCheck) :
    (format around d p i.file onlyCheck).Ends s (Accounts around i w) := by
  have hcode : i.task.WritesNoCode := by
    rw [hi]
    trivial
  unfold format
  cases onlyCheck with
  | true =>
    rw [if_pos rfl]
    have done : ∀ ending output, Accounts around i w ending { s with output := output } :=
      fun _ _ => accounts_of_unchanged hcode hs.workspace fun _ hformat => absurd hi hformat
    refine ends_ite (fun _ => ?_) fun _ => done _ _
    unfold Action.printLine Action.print
    split
    · exact done _ _
    · exact done _ _
  | false =>
    rw [if_neg nofun]
    cases hfile : i.file with
    | none => exact printed_ends hcode hs
    | some file =>
      refine ends_ite (fun _ => ?_) fun _ =>
        accounts_of_unchanged hcode hs.workspace fun hexit => absurd rfl hexit
      refine write_ends hs.workspace (fun _ => accounts_of_fails hs rfl)
        (fun w' hw' hlost => accounts_of_formatted hreads hi hfile (fun _ => hs.output) hw' ?_)
        fun w' hw' hok => ?_
      · rw [hlost]
        exact iff_of_false nofun fun h => nomatch h.1
      · refine print_ends
          (fun hlost => accounts_of_formatted hreads hi hfile (fun _ => hs.output) hw' ?_)
          fun hprinted => accounts_of_formatted hreads hi hfile (fun hexit => absurd rfl hexit) hw'
            (iff_of_true rfl ⟨hok, hprinted⟩)
        rw [hlost]
        exact iff_of_false nofun fun h => nomatch h.2

theorem build_ends {output target entry : Option String}
    (hi : i.task = .build output target entry) :
    (build around settings p output target entry).Ends s (Accounts around i w) := by
  refine (listing_quiet _ _ _).ends_bind (fun _ _ hs' => accounts_of_fails (hs.trans hs'))
    fun code s₁ hcode hs₁ => ?_
  have hs₁ := hs.trans hs₁
  have hcode := listing_eq_ok hcode
  refine (outputPath_quiet _).ends_bind (fun _ _ hs' => accounts_of_fails (hs₁.trans hs'))
    fun binary s₂ hbinary hs₂ => ?_
  have hs₂ := hs₁.trans hs₂
  obtain ⟨name, hname, rfl⟩ := outputPath_eq_ok hbinary
  cases hlisting : (Path.ofText name).withSuffix? ".s" with
  | none => exact accounts_of_fails hs₂ rfl
  | some listing =>
    refine write_ends hs₂.workspace (fun _ => accounts_of_fails hs₂ rfl)
      (fun w' hw' hlost =>
        accounts_of_built hreads hi hcode hname hlisting (fun _ => hs₂.output) hw' ?_)
      fun w' hw' hok => ?_
    · rw [hlost]
      exact iff_of_false nofun fun h => nomatch h.1
    -- from here on the code is in its file, and only the outside command may still fail
    have assembled : ∀ {ending : Ending} {s' : Session}, (ending ≠ .exit 0 → s'.output = "") →
        s'.workspace = w' → s'.started.isSome = (assembler? around settings).isSome →
        (ending = .exit 0 ↔
          around.tools.run ((assembler? around settings).map fun v => v.text?.getD "") = .built ∧
            around.output.takes (builtLine (.ofText name) ++ "\n")) →
        Accounts around i w ending s' := by
      intro ending s' hprints hworkspace hstarted hexit
      refine accounts_of_built hreads hi hcode hname hlisting hprints (hworkspace ▸ hw') ?_
      rw [hexit, Assembly.Toolchain.run_eq_built, Option.isSome_map, hstarted]
      exact ⟨fun h => ⟨hok, h.1.1, h.1.2, h.2⟩, fun h => ⟨⟨h.2.1, h.2.2.1⟩, h.2.2.2⟩⟩
    refine ends_modify ?_
    dsimp only
    cases hrun : around.tools.run ((assembler? around settings).map fun v => v.text?.getD "") with
    | built =>
      rw [hrun] at assembled
      refine print_ends (fun hlost => assembled (fun _ => hs₂.output) rfl (Option.isSome_map ..) ?_)
        fun hprinted => assembled (fun hexit => absurd rfl hexit) rfl (Option.isSome_map ..)
          (iff_of_true rfl ⟨rfl, hprinted⟩)
      rw [hlost]
      exact iff_of_false nofun fun h => nomatch h.2
    | failed e =>
      have fails : ∀ (ending : Ending) s', Leaves { s₂ with
          workspace := w'
          started := (assembler? around settings).map fun v =>
            (v, Assembly.Toolchain.arguments listing (.ofText name)) } s' → ending.Fails →
            Accounts around i w ending s' := by
        intro ending s' hs' hfails
        refine assembled (fun _ => hs'.output.trans hs₂.output) hs'.workspace ?_
          (iff_of_false hfails.ne_exit fun h => nomatch hrun.symm.trans h.1)
        rw [hs'.started, Option.isSome_map]
      refine (Quiet.say _).ends_bind fails fun _ s₃ _ hs₃ => ?_
      refine ends_ite (fun _ => ?_) fun _ => ?_
      · exact (Quiet.say _).ends_bind (fun ending s' hs' => fails ending s' (hs₃.trans hs'))
          fun _ s₄ _ hs₄ => fails (.exit 1) s₄ (hs₃.trans hs₄) rfl
      · exact fails (.exit 1) s₃ hs₃ rfl
    | broken e =>
      exact assembled (fun _ => hs₂.output) rfl (Option.isSome_map ..)
        (iff_of_false nofun fun h => nomatch hrun.symm.trans h.1)

end Writing

end Accounts

end Imp32.Command
