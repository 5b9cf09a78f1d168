import Imp32.Proofs.Compiler.Expressions

/-!
# Compiled statements

The code of a statement leaves its value in the result register and the operands as they were
(`Stmt.compiles`). A loop keeps the value of its last turn on top of the operands:
`implements_repeatWhile` is the invariant of its code at the head label, by induction on the number
of turns.
-/

namespace Imp32

open Assembly

section Loops

variable {whole : List Op} {names : List String} {rest : List Int}

/-- The value on top of the operands becomes the result. -/
theorem exec_popResult {s : StackState} {v : Int} (h : s.operands = v :: rest) :
    Op.popResult.exec s = .next { s with operands := rest, result := some v } := by
  simp only [Op.exec, h]

theorem exec_branchIfNotPositive {s : StackState} {v : Int} (target : Label)
    (h : s.result = some v) : (Op.branchIfNotPositive target).exec s =
      if 0 < v then .next s else .jump target s := by
  simp only [Op.exec, h]

/-- A loop as code: the test stands behind the head label and leaves for the exit label, the turn
stands behind the test and replaces the value on top of the operands, and a branch leads back. -/
structure LoopCode (whole : List Op) (names : List String) (turns : Nat) (test turn : Run Int)
    (head leave again out : Nat) : Prop where
  labels : ∃ start exit, whole[head]? = some (.label start) ∧ whole[out]? = some (.label exit) ∧
    whole[leave + 1]? = some (.branchIfNotPositive exit) ∧ whole[again]? = some (.branch start)
  pops : whole[leave]? = some .popResult ∧ whole[out + 1]? = some .popResult
  test : ∀ s, Implements whole names turns test ⟨head + 1, s⟩ leave (Pushes s)
  turn : ∀ s v rest, s.operands = v :: rest →
    Implements whole names turns turn ⟨leave + 2, s⟩ again
      (fun v' s' => s'.operands = v' :: rest)

/-- At its head, the code of a loop does what the remaining turns do. -/
theorem implements_repeatWhile {T head leave again out : Nat} {test turn : Run Int}
    (hlinked : Linked whole) (hcode : LoopCode whole names T test turn head leave again out)
    (t : Nat) (ht : t ≤ T) (result : Int) (s : StackState) (hs : s.operands = result :: rest) :
    Implements whole names t (Run.repeatWhile test turn t result) ⟨head, s⟩ (out + 2)
      (fun v s' => s'.operands = rest ∧ s'.result = some v) := by
  obtain ⟨⟨start, exit, hhead, hout, hleave, hagain⟩, ⟨hpop, hlast⟩, htest, hturn⟩ := hcode
  induction t generalizing result s with
  | zero => exact fun env _ => .zero _
  | succ t ih =>
    have ht' := Nat.le_of_succ_le ht
    have hfirst : stackStep whole ⟨head, s⟩ = .go ⟨head + 1, s⟩ := stackStep_next hhead rfl
    refine .of_advances (Advances.of_step hfirst) rfl ?_
    refine .bind ((htest s).fewer ht') fun c s₁ hs₁ => ?_
    have hs₁ : s₁.operands = c :: s.operands := hs₁
    let s₂ : StackState := { s₁ with operands := s.operands, result := some c }
    have hpopped : Op.popResult.exec s₁ = .next s₂ := exec_popResult hs₁
    have hexec : (Op.branchIfNotPositive exit).exec s₂ = _ := exec_branchIfNotPositive exit rfl
    refine .op hpop hpopped rfl ?_
    by_cases hc : 0 < c
    · rw [if_pos hc] at hexec ⊢
      refine .op hleave hexec rfl ?_
      refine .bind ((hturn s₂ result rest hs).fewer ht') fun v s₃ hs₃ => ?_
      have hback : stackStep whole ⟨again, s₃⟩ = .go ⟨head, s₃⟩ :=
        stackStep_jump hlinked hagain rfl hhead
      exact .of_reaches (Advances.of_step hback).reaches rfl (ih ht' v s₃ hs₃)
    · rw [if_neg hc] at hexec ⊢
      refine .of_reaches (reaches_jump hlinked hleave hexec hout) rfl ?_
      exact .op hlast (exec_popResult hs) rfl (.pure ⟨rfl, rfl⟩)

end Loops

section Compiling

variable {target : Target} {names : List String} {cond : Expr} {body : Compile (List Step)}
  {run : Nat → Run Int} {update : Option Expr}

/-- The code of a condition is the code of its value and two operations. -/
theorem test_compiled (hcond : Compiles target names (cond.code target names)
    (fun _ => cond.eval) Pushes) (exit : Label) (n : Nat) :
    ∃ value n', Compile.test target names cond exit n =
        .ok (value ++ [⟨.popResult, []⟩, ⟨.branchIfNotPositive exit, []⟩]) n' ∧
      Emitted target names.length n n'
        (value ++ [⟨.popResult, []⟩, ⟨.branchIfNotPositive exit, []⟩]) ∧
      ∀ turns, Does names (value.map Step.op) turns cond.eval Pushes := by
  obtain ⟨value, n', hcode, hemitted, hdoes⟩ := hcond n
  have hops : Compile.ops target [.popResult, .branchIfNotPositive exit] n' =
      .ok (([.popResult, .branchIfNotPositive exit] : List Op).map (⟨·, []⟩)) n' :=
    Compile.ops_plain (by simp [Op.Plain])
  have hleave : Emitted target names.length n' n'
      (([.popResult, .branchIfNotPositive exit] : List Op).map (⟨·, []⟩)) :=
    .plain (by simp [Op.Inner, Op.Plain]) n'
  refine ⟨value, n', ?_, hemitted.append hleave, hdoes⟩
  unfold Compile.test
  rw [bind_of_ok hcode, bind_of_ok hops]
  rfl

/-- The code of a loop does what its turns do, behind the value that it begins with. -/
theorem loop_compiled
    (hcond : Compiles target names (cond.code target names) (fun _ => cond.eval) Pushes)
    (hbody : Compiles target names body run Results)
    (hupdate : Compiles target names (Compile.clause target names update)
      (fun _ => evalClause update) (fun s _ s' => s'.operands = s.operands)) (n : Nat) :
    ∃ steps n', Compile.loop target names cond body update n = .ok steps n' ∧
      Emitted target names.length n n' steps ∧
      ∀ turns whole line s result rest, Linked whole → Placed whole line (steps.map Step.op) →
        s.operands = result :: rest →
        Implements whole names turns (Run.repeatWhile cond.eval (do
            let result ← run turns
            let _ ← evalClause update
            return result) turns result) ⟨line, s⟩ (line + steps.length)
          (fun v s' => s'.operands = rest ∧ s'.result = some v) := by
  let start : Label := .fresh "loop" (n + 1)
  let exit : Label := .fresh "loop_end" (n + 2)
  obtain ⟨value, n₁, htest, hemitted₁, hvalue⟩ := test_compiled hcond exit (n + 2)
  obtain ⟨turn, n₂, hturn, hemitted₂, hruns⟩ := hbody n₁
  obtain ⟨next, n₃, hnext, hemitted₃, hnexts⟩ := hupdate n₂
  have henter : Compile.op target (.label start) (n + 2) = .ok [⟨.label start, []⟩] (n + 2) :=
    Compile.op_plain (o := .label start) trivial _
  have hkeep : Compile.op target .storeTop n₂ = .ok [⟨.storeTop, []⟩] n₂ :=
    Compile.op_plain (o := .storeTop) trivial _
  have hleave : Compile.ops target [.branch start, .label exit, .popResult] n₃ =
      .ok (([.branch start, .label exit, .popResult] : List Op).map (⟨·, []⟩)) n₃ :=
    Compile.ops_plain (by simp [Op.Plain])
  refine ⟨⟨.label start, []⟩ :: (value ++ ⟨.popResult, []⟩ :: ⟨.branchIfNotPositive exit, []⟩ ::
    (turn ++ ⟨.storeTop, []⟩ :: (next ++ [⟨.branch start, []⟩, ⟨.label exit, []⟩, ⟨.popResult, []⟩]))),
    n₃, ?_, ?_, ?_⟩
  · unfold Compile.loop
    rw [bind_of_ok (Compile.newLabel_eq "loop" n), bind_of_ok (Compile.newLabel_eq "loop_end" (n + 1)),
      bind_of_ok henter, bind_of_ok htest, bind_of_ok hturn, bind_of_ok hkeep, bind_of_ok hnext,
      bind_of_ok hleave]
    show EStateM.Result.ok _ _ = _
    simp
  · -- Without its two labels, the code is emitted piece by piece.
    have hkept : Emitted target names.length n₂ n₂ (([.storeTop] : List Op).map (⟨·, []⟩)) :=
      .plain (by simp [Op.Inner, Op.Plain]) n₂
    have hlast : Emitted target names.length n₃ n₃
        (([.branch start, .popResult] : List Op).map (⟨·, []⟩)) :=
      .plain (by simp [Op.Inner, Op.Plain]) n₃
    have hall := hemitted₁.append (hemitted₂.append (hkept.append (hemitted₃.append hlast)))
    have hexit := Emitted.insert (n := n + 1) "loop_end" (by decide) (a := value ++
      ⟨.popResult, []⟩ :: ⟨.branchIfNotPositive exit, []⟩ :: (turn ++ ⟨.storeTop, []⟩ ::
      (next ++ [⟨.branch start, []⟩]))) (b := [⟨.popResult, []⟩]) (by simpa using hall)
    have hstart := Emitted.insert (n := n) "loop" (by decide) (a := []) hexit
    simpa using hstart
  · intro turns whole line s result rest hlinked hplaced hs
    simp only [List.map_cons, List.map_append, List.map_nil] at hplaced
    have h₁ := hplaced.tail
    have h₂ := h₁.right
    have h₃ := h₂.tail.tail
    have h₄ := h₃.right
    have h₅ := h₄.tail
    have h₆ := h₅.right
    simp only [List.length_map] at h₂ h₃ h₄ h₅ h₆
    have htests : ∀ s, Implements whole names turns cond.eval ⟨line + 1, s⟩
        (line + 1 + value.length) (Pushes s) := by
      intro s
      have := hvalue turns whole (line + 1) s hlinked h₁.left
      rwa [List.length_map] at this
    have hturns : ∀ s v rest, s.operands = v :: rest → Implements whole names turns (do
        let result ← run turns
        let _ ← evalClause update
        return result) ⟨line + 1 + value.length + 2, s⟩
        (line + 1 + value.length + 1 + 1 + turn.length + 1 + next.length)
        (fun v' s' => s'.operands = v' :: rest) := by
      intro s v rest hs
      have hrun := hruns turns whole _ s hlinked h₃.left
      rw [List.length_map] at hrun
      refine .bind hrun fun v' s₁ hs₁ => ?_
      obtain ⟨hoperands, hresult⟩ := hs₁
      have hstore : Op.storeTop.exec s₁ = .next { s₁ with operands := v' :: rest } := by
        simp only [Op.exec, hoperands, hs, hresult]
      refine .op h₄.head hstore rfl ?_
      have hclause := hnexts turns whole _ { s₁ with operands := v' :: rest } hlinked h₅.left
      rw [List.length_map] at hclause
      exact .bind hclause fun _ s₃ hs₃ => .pure hs₃
    have hcode : LoopCode whole names turns cond.eval _ line (line + 1 + value.length)
        (line + 1 + value.length + 1 + 1 + turn.length + 1 + next.length)
        (line + 1 + value.length + 1 + 1 + turn.length + 1 + next.length + 1) :=
      ⟨⟨start, exit, hplaced.head, h₆.tail.head, h₂.tail.head, h₆.head⟩,
        ⟨h₂.head, h₆.tail.tail.head⟩, htests, hturns⟩
    have hloop := implements_repeatWhile hlinked hcode turns (Nat.le_refl _) result s hs
    have hend : line + 1 + value.length + 1 + 1 + turn.length + 1 + next.length + 1 + 2 =
        line + (⟨.label start, []⟩ :: (value ++ ⟨.popResult, []⟩ ::
          ⟨.branchIfNotPositive exit, []⟩ :: (turn ++ ⟨.storeTop, []⟩ :: (next ++
          [⟨.branch start, []⟩, ⟨.label exit, []⟩, ⟨.popResult, []⟩]))) : List Step).length := by
      simp only [List.length_cons, List.length_append, List.length_nil]
      omega
    rwa [← hend]

/-- The code of a conditional statement does what the statement does. -/
theorem ifThen_compiled (span : Span) (statements : List Stmt)
    (hcond : Compiles target names (cond.code target names) (fun _ => cond.eval) Pushes)
    (hbody : Compiles target names
      (Compile.body target statements.isEmpty (statementsCode target names statements))
      (fun turns => execAll turns statements 0) Results) :
    Compiles target names ((Stmt.ifThen cond statements span).code target names)
      (fun turns => (Stmt.ifThen cond statements span).exec turns) Results := by
  intro n
  let otherwise : Label := .fresh "else" (n + 1)
  let exit : Label := .fresh "end" (n + 2)
  obtain ⟨value, n₁, htest, hemitted₁, hvalue⟩ := test_compiled hcond otherwise (n + 2)
  obtain ⟨inner, n₂, hinner, hemitted₂, hruns⟩ := hbody n₁
  have hleave : Compile.ops target [.branch exit, .label otherwise, .loadZero, .label exit] n₂ =
      .ok (([.branch exit, .label otherwise, .loadZero, .label exit] : List Op).map (⟨·, []⟩))
        n₂ := Compile.ops_plain (by simp [Op.Plain])
  refine ⟨value ++ ⟨.popResult, []⟩ :: ⟨.branchIfNotPositive otherwise, []⟩ :: (inner ++
    [⟨.branch exit, []⟩, ⟨.label otherwise, []⟩, ⟨.loadZero, []⟩, ⟨.label exit, []⟩]),
    n₂, ?_, ?_, ?_⟩
  · unfold Stmt.code
    rw [bind_of_ok (Compile.newLabel_eq "else" n), bind_of_ok (Compile.newLabel_eq "end" (n + 1)),
      bind_of_ok htest, bind_of_ok hinner, bind_of_ok hleave]
    show EStateM.Result.ok _ _ = _
    simp
  · have hlast : Emitted target names.length n₂ n₂
        (([.branch exit, .loadZero] : List Op).map (⟨·, []⟩)) :=
      .plain (by simp [Op.Inner, Op.Plain]) n₂
    have hall := hemitted₁.append (hemitted₂.append hlast)
    have hexit := Emitted.insert (n := n + 1) "end" (by decide) (a := value ++
      ⟨.popResult, []⟩ :: ⟨.branchIfNotPositive otherwise, []⟩ :: (inner ++
      [⟨.branch exit, []⟩, ⟨.loadZero, []⟩])) (b := []) (by simpa using hall)
    have helse := Emitted.insert (n := n) "else" (by decide) (a := value ++
      ⟨.popResult, []⟩ :: ⟨.branchIfNotPositive otherwise, []⟩ :: (inner ++ [⟨.branch exit, []⟩]))
      (b := [⟨.loadZero, []⟩, ⟨.label exit, []⟩]) (by simpa using hexit)
    simpa using helse
  · intro turns whole line s hlinked hplaced
    simp only [List.map_cons, List.map_append, List.map_nil] at hplaced ⊢
    have h₂ := hplaced.right
    have h₃ := h₂.tail.tail
    have h₄ := h₃.right
    have hend : line + (value.map Step.op).length + 1 + 1 + (inner.map Step.op).length + 1 + 1 + 1 +
        1 = line + (value.map Step.op ++ Op.popResult :: .branchIfNotPositive otherwise ::
          (inner.map Step.op ++
            [.branch exit, .label otherwise, .loadZero, .label exit])).length := by
      simp only [List.length_cons, List.length_append, List.length_nil]
      omega
    rw [← hend]
    show Implements whole names turns (do
      if 0 < (← cond.eval) then execAll turns statements 0 else return 0) _ _ _
    refine .bind (hvalue turns whole line s hlinked hplaced.left) fun c s₁ hs₁ => ?_
    have hs₁ : s₁.operands = c :: s.operands := hs₁
    let s₂ : StackState := { s₁ with operands := s.operands, result := some c }
    have hpopped : Op.popResult.exec s₁ = .next s₂ := exec_popResult hs₁
    have hexec : (Op.branchIfNotPositive otherwise).exec s₂ = _ :=
      exec_branchIfNotPositive otherwise rfl
    refine .op h₂.head hpopped rfl ?_
    by_cases hc : 0 < c
    · rw [if_pos hc] at hexec ⊢
      refine .op h₂.tail.head hexec rfl ?_
      refine .after (hruns turns whole _ s₂ hlinked h₃.left) fun v s₃ hs₃ => ?_
      exact ⟨s₃, reaches_jump hlinked h₄.head rfl h₄.tail.tail.tail.head, rfl, hs₃⟩
    · rw [if_neg hc] at hexec ⊢
      refine .of_reaches (reaches_jump hlinked h₂.tail.head hexec h₄.tail.head) rfl ?_
      exact .op h₄.tail.tail.head rfl rfl <| .op h₄.tail.tail.tail.head rfl rfl <|
        .pure ⟨rfl, rfl⟩

/-- Zero in place of a first value. -/
theorem zero_behind {first : Compile (List Step)} {value : Run Int}
    (hfirst : Compiles target names first (fun _ => value) Pushes) :
    Compiles target names (do
        let first ← first
        let zero ← Compile.ops target [.popResult, .loadZero]
        return first ++ zero)
      (fun _ => do
        let _ ← value
        return 0) Results := by
  refine hfirst.then (by simp [Op.Inner]) fun turns whole line s v s' _ hplaced hs' => ?_
  exact .op hplaced.head (exec_popResult hs') rfl <| .op hplaced.tail.head rfl rfl <|
    .pure ⟨rfl, rfl⟩

/-- A loop behind the code of its first value. -/
theorem loop_behind {first : Compile (List Step)} {value : Run Int}
    (hfirst : Compiles target names first (fun _ => value) Pushes)
    (hcond : Compiles target names (cond.code target names) (fun _ => cond.eval) Pushes)
    (hbody : Compiles target names body run Results)
    (hupdate : Compiles target names (Compile.clause target names update)
      (fun _ => evalClause update) (fun s _ s' => s'.operands = s.operands)) :
    Compiles target names (do
        let first ← first
        let rest ← Compile.loop target names cond body update
        return first ++ rest)
      (fun turns => do
        let first ← value
        Run.repeatWhile cond.eval (do
          let result ← run turns
          let _ ← evalClause update
          return result) turns first) Results := by
  intro n
  obtain ⟨steps₁, n₁, hcode₁, hemitted₁, hdoes₁⟩ := hfirst n
  obtain ⟨steps₂, n₂, hcode₂, hemitted₂, hdoes₂⟩ := loop_compiled hcond hbody hupdate n₁
  refine ⟨steps₁ ++ steps₂, n₂, ?_, hemitted₁.append hemitted₂, ?_⟩
  · rw [bind_of_ok hcode₁, bind_of_ok hcode₂]
    rfl
  intro turns whole line s hlinked hplaced
  have hlength : (steps₂.map Step.op).length = steps₂.length := List.length_map Step.op
  rw [List.map_append] at hplaced ⊢
  rw [List.length_append, ← Nat.add_assoc, hlength]
  refine .bind (hdoes₁ turns whole line s hlinked hplaced.left) fun v s₁ hs₁ => ?_
  exact hdoes₂ turns whole _ s₁ v s.operands hlinked hplaced.right hs₁

end Compiling

/-! ## Statements -/

def Expr.Fits (names : List String) (e : Expr) : Prop := e.Proper ∧ e.Over names

section Clauses

variable {target : Target} {names : List String}

theorem Expr.Fits.compiles (hnodup : names.Nodup) {e : Expr} (h : e.Fits names) :
    Compiles target names (e.code target names) (fun _ => e.eval) Pushes :=
  e.compiles hnodup h.1 h.2

/-- The code of an expression as a statement. -/
theorem Expr.Fits.compiles_clause (hnodup : names.Nodup) {e : Expr} (h : e.Fits names) :
    Compiles target names (Compile.clause target names (some e)) (fun _ => e.eval) Results := by
  have hops : Compile.op target .popResult = Compile.ops target [.popResult] := by
    funext n
    rw [Compile.op_plain (o := .popResult) trivial, Compile.ops_plain (by simp [Op.Plain])]
    rfl
  have hvalue : Compiles target names (e.code target names) (fun _ => e.eval) Pushes :=
    h.compiles hnodup
  have hdrop : Compiles target names (do
      let value ← e.code target names
      let drop ← Compile.ops target [.popResult]
      return value ++ drop) (fun _ => e.eval >>= Pure.pure) Results :=
    hvalue.then (by simp [Op.Inner]) fun turns whole line s v s' _ hplaced hs' =>
      .op hplaced.head (exec_popResult hs') rfl (.pure ⟨rfl, rfl⟩)
  rw [← hops] at hdrop
  simpa only [bind_pure, Compile.clause] using hdrop

/-- The code of a clause whose value is dropped. -/
theorem clause_compiled (hnodup : names.Nodup) {e : Option Expr} (h : ∀ a ∈ e, a.Fits names) :
    Compiles target names (Compile.clause target names e) (fun _ => evalClause e)
      (fun s _ s' => s'.operands = s.operands) := by
  cases e with
  | none =>
    intro n
    exact ⟨[], n, rfl, .nil target _ n, fun turns whole line s _ _ => .pure rfl⟩
  | some a =>
    intro n
    obtain ⟨steps, n', hcode, hemitted, hdoes⟩ := (h a rfl).compiles_clause hnodup n
    refine ⟨steps, n', hcode, hemitted, fun turns whole line s hlinked hplaced => ?_⟩
    exact (hdoes turns whole line s hlinked hplaced).after fun v s' hs' =>
      ⟨s', .refl _, rfl, hs'.1⟩

/-- The code of the first clause of a loop. -/
theorem init_compiled (hnodup : names.Nodup) (init : Option Expr) :
    (∀ a ∈ init, a.Fits names) → Compiles target names (match init with
      | some e => e.code target names
      | none => Compile.op target (.pushImm 0)) (fun _ => evalClause init) Pushes := by
  intro h
  cases init with
  | none => exact .value (by decide)
  | some a => exact (h a rfl).compiles hnodup

end Clauses

/-- Compiling succeeds, with code that does what the runs do from a state with a first result. It
has to be known only in front of no statement. -/
def CompilesAfter (target : Target) (names : List String) (p : Program) : Prop :=
  ∀ n, ∃ steps n', statementsCode target names p n = .ok steps n' ∧
    Emitted target names.length n n' steps ∧
    ∀ turns whole line s result, Linked whole → Placed whole line (steps.map Step.op) →
      (p = [] → s.result = some result) →
      Implements whole names turns (execAll turns p result) ⟨line, s⟩ (line + steps.length)
        (Results s)

/-- The code of a body. -/
theorem body_compiled {target : Target} {names : List String} {p : Program}
    (h : CompilesAfter target names p) : Compiles target names
      (Compile.body target p.isEmpty (statementsCode target names p))
      (fun turns => execAll turns p 0) Results := by
  intro n
  cases p with
  | nil =>
    have hzero : Emitted target names.length n n (([.loadZero] : List Op).map (⟨·, []⟩)) :=
      .plain (by simp [Op.Inner, Op.Plain]) n
    refine ⟨_, _, Compile.op_plain (o := .loadZero) trivial n, hzero, ?_⟩
    exact fun turns whole line s _ hplaced => .op hplaced.head rfl rfl (.pure ⟨rfl, rfl⟩)
  | cons s rest =>
    obtain ⟨steps, n', hcode, hemitted, hdoes⟩ := h n
    refine ⟨steps, n', hcode, hemitted, fun turns whole line s hlinked hplaced => ?_⟩
    rw [List.length_map]
    exact hdoes turns whole line s 0 hlinked hplaced fun h => absurd h (List.cons_ne_nil _ _)

mutual

/-- A statement whose expressions fit is compiled to code that does what the statement does. -/
theorem Stmt.compiles {target : Target} {names : List String} (hnodup : names.Nodup) (s : Stmt)
    (h : s.Each (Expr.Fits names)) :
    Compiles target names (s.code target names) (fun turns => s.exec turns) Results := by
  cases s with
  | expr e span => exact Expr.Fits.compiles_clause hnodup h
  | block body span => exact body_compiled (statements_compile hnodup body h)
  | ifThen cond body span =>
    exact ifThen_compiled span body (h.1.compiles hnodup)
      (body_compiled (statements_compile hnodup body h.2))
  | whileLoop cond body span =>
    have hzero : Compiles target names (Compile.op target (.pushImm 0)) (fun _ => return 0) Pushes :=
      .value (by decide)
    have hloop := loop_behind hzero (h.1.compiles hnodup)
      (body_compiled (statements_compile hnodup body h.2)) (clause_compiled hnodup (e := none) nofun)
    simpa [Stmt.code, Stmt.exec, evalClause] using hloop
  | forLoop init cond update body span =>
    obtain ⟨hinit, hcond, hupdate, hbody⟩ := h
    have hfirst : Compiles target names _ (fun _ => evalClause init) Pushes :=
      init_compiled hnodup init hinit
    cases cond with
    | none =>
      have hzero := zero_behind hfirst
      cases init <;> simpa only [Stmt.code, Stmt.exec] using hzero
    | some cond =>
      have hloop := loop_behind hfirst ((hcond cond rfl).compiles hnodup)
        (body_compiled (statements_compile hnodup body hbody)) (clause_compiled hnodup hupdate)
      cases init <;> simpa only [Stmt.code, Stmt.exec] using hloop

theorem statements_compile {target : Target} {names : List String} (hnodup : names.Nodup)
    (p : Program) (h : p.Each (Expr.Fits names)) : CompilesAfter target names p := by
  intro n
  cases p with
  | nil =>
    refine ⟨[], n, rfl, .nil target _ n, fun turns whole line s result _ _ hresult => ?_⟩
    exact .pure ⟨rfl, hresult rfl⟩
  | cons s rest =>
    obtain ⟨first, n₁, hcode₁, hemitted₁, hdoes₁⟩ := Stmt.compiles hnodup s h.1 n
    obtain ⟨others, n₂, hcode₂, hemitted₂, hdoes₂⟩ := statements_compile hnodup rest h.2 n₁
    refine ⟨first ++ others, n₂, ?_, hemitted₁.append hemitted₂, ?_⟩
    · unfold statementsCode
      rw [bind_of_ok hcode₁, bind_of_ok hcode₂]
      rfl
    intro turns whole line s' result hlinked hplaced _
    rw [List.map_append] at hplaced
    rw [List.length_append, ← Nat.add_assoc]
    show Implements whole names turns (do
      let result ← s.exec turns
      execAll turns rest result) _ _ _
    refine .bind (hdoes₁ turns whole line s' hlinked hplaced.left) fun v s₁ hs₁ => ?_
    rw [List.length_map]
    have hplaced₂ := hplaced.right
    rw [List.length_map] at hplaced₂
    have hrest := hdoes₂ turns whole _ s₁ v hlinked hplaced₂ fun _ => hs₁.2
    refine hrest.after fun r s₂ hs₂ => ⟨s₂, .refl _, rfl, ?_⟩
    exact ⟨hs₂.1.trans hs₁.1, hs₂.2⟩

end

end Imp32
