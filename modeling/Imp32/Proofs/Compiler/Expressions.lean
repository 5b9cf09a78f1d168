import Imp32.Proofs.Compiler.Simulation
import Imp32.Proofs.Evaluation

/-!
# Compiled expressions

The code of a proper expression over the names that have slots pushes the value of the expression,
and fails where the evaluator fails (`Expr.compiles`). It is proved for every place that the code
may stand in, with any operands below its own.
-/

namespace Imp32

open Assembly

/-- Every name of the expression is among these. -/
def Expr.Over (names : List String) : Expr → Prop
  | value _ _ => True
  | var name _ => name ∈ names
  | neg a _ => a.Over names
  | binary a _ b _ => a.Over names ∧ b.Over names

/-- The operations do what the run does, wherever they stand. `Q` relates the state before, the
value and the state after. -/
def Does (names : List String) (ops : List Op) (turns : Nat) (run : Run Int)
    (Q : StackState → Int → StackState → Prop) : Prop :=
  ∀ whole line s, Linked whole → Placed whole line ops →
    Implements whole names turns run ⟨line, s⟩ (line + ops.length) (Q s)

/-- Compiling succeeds, with code that does what the runs do. -/
def Compiles (target : Target) (names : List String) (code : Compile (List Step))
    (run : Nat → Run Int) (Q : StackState → Int → StackState → Prop) : Prop :=
  ∀ n, ∃ steps n', code n = .ok steps n' ∧ Emitted target names.length n n' steps ∧
    ∀ turns, Does names (steps.map Step.op) turns (run turns) Q

def Pushes (s : StackState) (v : Int) (s' : StackState) : Prop :=
  s'.operands = v :: s.operands

/-- A value is the result, and the operands are as they were. -/
def Results (s : StackState) (v : Int) (s' : StackState) : Prop :=
  s'.operands = s.operands ∧ s'.result = some v

/-! ## Slots -/

section Slots

variable {names : List String} {name : String} {env : Env}

theorem getElem?_slotsOf (h : name ∈ names) :
    (slotsOf names env)[names.idxOf name]? = some (env.get? name) := by
  unfold slotsOf
  have hlt := List.idxOf_lt_length_of_mem h
  rw [List.getElem?_map, List.getElem?_eq_getElem hlt, List.getElem_idxOf hlt]
  rfl

/-- Storing into the slot of a name binds the name. -/
theorem set_slotsOf (hnodup : names.Nodup) (v : Int) :
    (slotsOf names env).set (names.idxOf name) (some v) = slotsOf names (env.set name v) := by
  unfold slotsOf
  refine List.ext_getElem? fun k => ?_
  rw [List.getElem?_set, List.getElem?_map, List.getElem?_map, List.length_map]
  by_cases hk : k < names.length
  · rw [List.getElem?_eq_getElem hk]
    simp only [Option.map_some, Bindings.get?_set]
    by_cases hname : names.idxOf name = k
    · subst hname
      rw [if_pos rfl, if_pos hk, List.getElem_idxOf hk, if_pos rfl]
    · have hne : name ≠ names[k] := by
        rintro rfl
        exact hname (hnodup.idxOf_getElem k hk)
      rw [if_neg hname, if_neg hne]
  · have hnone : names[k]? = none := List.getElem?_eq_none (Nat.le_of_not_lt hk)
    rw [hnone]
    split
    · rename_i h
      rw [h, if_neg hk]
      rfl
    · rfl

end Slots

/-! ## Operations that fail -/

section Failing

variable {whole : List Op} {names : List String} {turns line line' : Nat} {s s' : StackState}
  {o : Op} {e : EvalError}

theorem Fails.of_jump {kind : String} (hlinked : Linked whole) (hplaced : whole[line]? = some o)
    (hexec : o.exec s = .jump (.trap kind) s') (hkind : kind ∈ o.trapKinds)
    (he : e.trapKind? = some kind) : Fails whole ⟨line, s⟩ e := by
  obtain ⟨k, code, hlabel, htrap, hcode⟩ :=
    hlinked.handlers o (List.mem_of_getElem? hplaced) kind hkind
  exact ⟨kind, k, code, s', he, hcode, hlabel, htrap,
    (Advances.of_step (stackStep_jump hlinked hplaced hexec hlabel)).reaches⟩

theorem BinaryOp.apply_ok_span {op : BinaryOp} {a b r : Int} {span : Span}
    (h : op.apply a b span = .ok r) (span' : Span) : op.apply a b span' = .ok r := by
  cases op with
  | div | pow =>
    simp only [BinaryOp.apply] at h ⊢
    split at h
    · cases h
    · rw [if_neg ‹_›]
      exact h
  | _ => exact h

/-- The span does not show in the kind of an error. -/
theorem BinaryOp.apply_error_span {op : BinaryOp} {a b : Int} {span : Span} {e : EvalError}
    (h : op.apply a b span = .error e) (span' : Span) :
    ∃ e', op.apply a b span' = .error e' ∧ e'.trapKind? = e.trapKind? := by
  cases op with
  | div | pow =>
    simp only [BinaryOp.apply] at h ⊢
    split at h
    · cases h
      exact ⟨_, if_pos ‹_›, rfl⟩
    · cases h
  | assign => exact ⟨e, h, rfl⟩
  | _ => cases h

/-- An operation applies an operator as the evaluator does. -/
theorem exec_operation {op : BinaryOp} (hop : op ≠ .assign) (s : StackState) :
    (Compile.operation op).exec s = s.apply op := by
  cases op <;> first | rfl | exact absurd rfl hop

theorem trapKind_mem {op : BinaryOp} (hop : op ≠ .assign) {a b : Int} {span : Span}
    (h : op.apply a b span = .error e) :
    ∃ kind ∈ (Compile.operation op).trapKinds, e.trapKind? = some kind := by
  cases op with
  | div =>
    simp only [BinaryOp.apply] at h
    split at h <;> cases h
    exact ⟨"div_zero", List.mem_cons_self, rfl⟩
  | pow =>
    simp only [BinaryOp.apply] at h
    split at h <;> cases h
    exact ⟨"neg_exp", List.mem_cons_self, rfl⟩
  | assign => exact absurd rfl hop
  | _ => cases h

/-- The operands are popped, and the operator pushes their result. -/
theorem implements_apply {op : BinaryOp} (hop : op ≠ .assign) {a b : Int} (span : Span)
    (hlinked : Linked whole)
    (hplaced : Placed whole line [.popOperands, Compile.operation op, .pushResult])
    {rest : List Int} (hs : s.operands = b :: a :: rest) :
    Implements whole names turns
      (match op.apply a b span with
        | .ok r => return r
        | .error e => Run.fail e) ⟨line, s⟩ (line + 3)
      (fun v s' => s'.operands = v :: rest) := by
  have hpop : Op.popOperands.exec s =
      .next { s with operands := rest, result := some a, right := some b } := by
    simp only [Op.exec, hs]
  refine .op hplaced.head hpop rfl ?_
  let popped : StackState := { s with operands := rest, result := some a, right := some b }
  have happly : (Compile.operation op).exec popped = popped.applied op a b :=
    exec_operation hop popped
  cases hr : op.apply a b span with
  | ok r =>
    rw [StackState.applied_of_ok (BinaryOp.apply_ok_span hr .none)] at happly
    exact .op hplaced.tail.head happly rfl <| .op hplaced.tail.tail.head rfl rfl <| .pure rfl
  | error e =>
    obtain ⟨e', hr', hkind'⟩ := BinaryOp.apply_error_span hr .none
    obtain ⟨kind, hmem, hkind⟩ := trapKind_mem hop hr'
    rw [StackState.applied_of_error hr' hkind] at happly
    intro env _
    exact Fails.of_jump hlinked hplaced.tail.head happly hmem (hkind'.symm.trans hkind)

end Failing

/-! ## Expressions -/

theorem inRange_of_isLiteral {n : Int} (h : IsLiteral n) : Word.InRange n := by
  obtain ⟨hlow, hhigh⟩ := h
  simp only [Word.maxValue] at hhigh
  exact ⟨by omega, by omega⟩

section Operators

variable {op : BinaryOp} {a b : Expr} {span : Span}

theorem Expr.code_binary {target : Target} {names : List String} (hop : op ≠ .assign) :
    (Expr.binary a op b span).code target names = (do
      let left ← a.code target names
      let right ← b.code target names
      let apply ← Compile.ops target [.popOperands, Compile.operation op, .pushResult]
      return left ++ right ++ apply) := by
  cases op <;> first | rfl | exact absurd rfl hop

theorem operation_inner (hop : op ≠ .assign) (slots : Nat) : (Compile.operation op).Inner slots := by
  cases op <;> trivial

theorem operation_ne_label (op : BinaryOp) (l : Label) : Compile.operation op ≠ .label l := by
  cases op <;> nofun

end Operators

section Compiles

variable {target : Target} {names : List String} {code : Compile (List Step)}
  {run : Nat → Run Int} {Q Q' : StackState → Int → StackState → Prop} {os : List Op}

theorem Compiles.value {n : Int} (h : Word.InRange n) :
    Compiles target names (Compile.op target (.pushImm n)) (fun _ => return n) Pushes := by
  intro k
  refine ⟨_, _, Compile.op_eq target (.pushImm n) k, .step trivial nofun, ?_⟩
  intro turns whole line s hlinked hplaced
  refine .op hplaced.head rfl rfl (.pure ?_)
  show Word.wrap n :: s.operands = n :: s.operands
  rw [Word.wrap_of_inRange h]

/-- Operations behind compiled code. -/
theorem Compiles.then {f : Int → Run Int} (h : Compiles target names code run Q)
    (hos : ∀ o ∈ os, o.Inner names.length ∧ ∀ l, o ≠ .label l)
    (hdoes : ∀ turns whole line s v s', Linked whole → Placed whole line os → Q s v s' →
      Implements whole names turns (f v) ⟨line, s'⟩ (line + os.length) (Q' s)) :
    Compiles target names (do
        let first ← code
        let last ← Compile.ops target os
        return first ++ last) (fun turns => run turns >>= f) Q' := by
  intro n
  obtain ⟨first, n₁, hfirst, hemitted₁, hrun⟩ := h n
  obtain ⟨last, n₂, hlast, hemitted₂, hmap⟩ := Compile.ops_emitted target hos n₁
  refine ⟨first ++ last, n₂, ?_, hemitted₁.append hemitted₂, ?_⟩
  · rw [bind_of_ok hfirst, bind_of_ok hlast]
    rfl
  intro turns whole line s hlinked hplaced
  rw [List.map_append, hmap] at hplaced ⊢
  rw [List.length_append, ← Nat.add_assoc]
  refine .bind (hrun turns whole line s hlinked hplaced.left) fun v s' hs' => ?_
  exact hdoes turns whole _ s v s' hlinked hplaced.right hs'

end Compiles

theorem Compiles.var {target : Target} {names : List String} {name : String} {span : Span}
    (h : name ∈ names) :
    Compiles target names (Compile.ops target [.loadVar (names.idxOf name), .pushResult])
      (fun _ => (Expr.var name span).eval) Pushes := by
  intro k
  have hload : (Op.loadVar (names.idxOf name)).Inner names.length :=
    ⟨_, List.idxOf_lt_length_of_mem h, rfl⟩
  have hinner : ∀ o ∈ ([.loadVar (names.idxOf name), .pushResult] : List Op),
      o.Inner names.length ∧ ∀ l, o ≠ .label l := by
    simpa using ⟨hload, trivial⟩
  obtain ⟨steps, k', hcode, hemitted, hmap⟩ := Compile.ops_emitted target hinner k
  refine ⟨steps, k', hcode, hemitted, ?_⟩
  intro turns whole line s hlinked hplaced env henv
  rw [hmap] at hplaced ⊢
  have hslot : ((names.idxOf name : Nat) : Int).toNat?.bind (s.slots[·]?) =
      some (env.get? name) := by
    rw [henv]
    exact getElem?_slotsOf h
  show Follows whole names turns ((Expr.var name span).eval env) _ _ _
  rw [Expr.eval_var]
  cases hv : env.get? name with
  | some v =>
    have hexec : (Op.loadVar (names.idxOf name)).exec s = .next { s with result := some v } := by
      simp only [Op.exec, hslot, hv]
    have hrun : Implements whole names turns (Pure.pure v) ⟨line, s⟩ (line + 2) (Pushes s) :=
      .op hplaced.head hexec rfl <| .op hplaced.tail.head rfl rfl <| .pure rfl
    exact hrun env henv
  | none =>
    have hexec : (Op.loadVar (names.idxOf name)).exec s =
        .jump (.trap "unbound") { s with result := none } := by
      simp only [Op.exec, hslot, hv]
    exact Fails.of_jump hlinked hplaced.head hexec List.mem_cons_self rfl

/-- A variable is assigned the value on top of the stack, which stays there. -/
theorem implements_store {whole : List Op} {names : List String} {turns line : Nat}
    {s : StackState} {name : String} {v : Int} {rest : List Int} (hnodup : names.Nodup)
    (h : name ∈ names)
    (hplaced : Placed whole line [.popResult, .storeVar (names.idxOf name), .pushResult])
    (hs : s.operands = v :: rest) :
    Implements whole names turns (do
        modify (Bindings.set · name v)
        return v) ⟨line, s⟩ (line + 3) (fun n s' => s'.operands = n :: rest) := by
  intro env henv
  have hlt := List.idxOf_lt_length_of_mem h
  have hpop : Op.popResult.exec s = .next { s with operands := rest, result := some v } := by
    simp only [Op.exec, hs]
  have hlength : s.slots.length = names.length := by
    have hslots : s.slots = slotsOf names env := henv
    rw [hslots]
    exact List.length_map ..
  have hstore : (Op.storeVar (names.idxOf name)).exec
      { s with operands := rest, result := some v } =
        .next { s with operands := rest, result := some v,
                       slots := s.slots.set (names.idxOf name) (some v) } := by
    simp only [Op.exec]
    show (if names.idxOf name < s.slots.length then _ else _) = _
    rw [if_pos (hlength ▸ hlt)]
  refine ⟨_, (reaches_op hplaced.head hpop).trans <| (reaches_op hplaced.tail.head hstore).trans <|
    reaches_op hplaced.tail.tail.head rfl, ?_, rfl⟩
  show s.slots.set (names.idxOf name) (some v) = slotsOf names (env.set name v)
  have hslots : s.slots = slotsOf names env := henv
  rw [hslots, set_slotsOf hnodup]

/-- An expression that assigns to variables only and whose names have slots is compiled to code
that pushes its value. -/
theorem Expr.compiles {target : Target} {names : List String} (hnodup : names.Nodup) {e : Expr}
    (hproper : e.Proper) (hover : e.Over names) :
    Compiles target names (e.code target names) (fun _ => e.eval) Pushes := by
  induction e with
  | value n span => exact .value (inRange_of_isLiteral hproper.spellable)
  | var name span => exact .var hover
  | neg a span ih =>
    refine (ih ⟨hproper.wellFormed, hproper.spellable⟩ hover).then (by simp [Op.Inner]) ?_
    intro turns whole line s v s' _ hplaced hs'
    have hs' : s'.operands = v :: s.operands := hs'
    have hpop : Op.popResult.exec s' =
        .next { s' with operands := s.operands, result := some v } := by
      simp only [Op.exec, hs']
    exact .op hplaced.head hpop rfl <| .op hplaced.tail.head rfl rfl <|
      .op hplaced.tail.tail.head rfl rfl <| .pure rfl
  | binary a op b span iha ihb =>
    obtain ⟨⟨hvar, hwa, hwb⟩, hsa, hsb⟩ := hproper
    obtain ⟨hoa, hob⟩ := hover
    by_cases hop : op = .assign
    · obtain ⟨name, span', rfl⟩ := hvar hop
      subst hop
      have hstore : (Op.storeVar (names.idxOf name)).Inner names.length :=
        ⟨_, List.idxOf_lt_length_of_mem hoa, rfl⟩
      have hinner : ∀ o ∈ ([.popResult, .storeVar (names.idxOf name), .pushResult] : List Op),
          o.Inner names.length ∧ ∀ l, o ≠ .label l := by
        simpa [Op.Inner] using hstore
      refine (ihb ⟨hwb, hsb⟩ hob).then hinner ?_
      intro turns whole line s v s' _ hplaced hs'
      exact implements_store hnodup hoa hplaced hs'
    · rw [Expr.code_binary hop]
      intro k
      obtain ⟨left, k₁, hleft, hemitted₁, hdoes₁⟩ := iha ⟨hwa, hsa⟩ hoa k
      obtain ⟨right, k₂, hright, hemitted₂, hdoes₂⟩ := ihb ⟨hwb, hsb⟩ hob k₁
      have hinner : ∀ o ∈ ([.popOperands, Compile.operation op, .pushResult] : List Op),
          o.Inner names.length ∧ ∀ l, o ≠ .label l := by
        simpa [Op.Inner] using ⟨operation_inner hop _, operation_ne_label op⟩
      obtain ⟨last, k₃, hlast, hemitted₃, hmap⟩ := Compile.ops_emitted target hinner k₂
      refine ⟨left ++ right ++ last, k₃, ?_, (hemitted₁.append hemitted₂).append hemitted₃, ?_⟩
      · rw [bind_of_ok hleft, bind_of_ok hright, bind_of_ok hlast]
        rfl
      intro turns whole line s hlinked hplaced
      show Implements whole names turns (Expr.binary a op b span).eval _ _ _
      rw [Expr.eval_binary hop]
      rw [List.map_append, List.map_append, hmap] at hplaced ⊢
      rw [List.length_append, List.length_append, ← Nat.add_assoc, ← Nat.add_assoc]
      refine .bind (hdoes₁ turns whole line s hlinked hplaced.left.left) fun m s₁ hs₁ => ?_
      refine .bind (hdoes₂ turns whole _ s₁ hlinked hplaced.left.right) fun n s₂ hs₂ => ?_
      have hplaced₃ := hplaced.right
      rw [List.length_append, ← Nat.add_assoc] at hplaced₃
      have hs : s₂.operands = n :: m :: s.operands := by
        have hs₁ : s₁.operands = m :: s.operands := hs₁
        have hs₂ : s₂.operands = n :: s₁.operands := hs₂
        rw [hs₂, hs₁]
      exact implements_apply hop span hlinked hplaced₃ hs

end Imp32
