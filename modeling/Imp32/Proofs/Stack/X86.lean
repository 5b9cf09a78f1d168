import Imp32.Proofs.Backend.X86.Program
import Imp32.Proofs.Stack.Linked

/-!
# Stack discipline on x86-64

An operand has 16 bytes, and the slots are below the frame pointer. Operands are pushed from `%rax`, so
that a shape says what `%rax` holds. A push moves the stack pointer before it stores, with the
topmost operand open in between, and a pop loads before it moves the stack pointer. In front of the
jump that an unassigned slot takes, the zero flag says whether what has been loaded has a high half.
-/

namespace Imp32.Assembly.X86

/-- By how many operands an instruction makes the stack deeper. -/
def Instr.net : Instr → Int
  | subImmQ n .sp => n / 16
  | addImmQ n .sp => -(n / 16 : Nat)
  | _ => 0

/-- The address that an instruction writes an operand to, and the operand. -/
def Instr.writes (i : Instr) (s : State) : Option (Int × Int) :=
  match i with
  | store src offset .sp => some (s.reg .sp + offset, s.reg src)
  | _ => none

/-- The address that an instruction reads an operand from. -/
def Instr.reads (i : Instr) (s : State) : Option Int :=
  match i with
  | load offset .sp _ => some (s.reg .sp + offset)
  | _ => none

/-- x86-64 with the lines that operations expand to. The stack pointer is aligned to 16 bytes in front of
a call, which pushes the return address. -/
def platform : Platform Instr State Stop where
  target := .x86
  expand := expand
  text := Instr.text
  exec := Instr.exec
  sp s := s.reg .sp
  memory := State.memory
  net := Instr.net
  writes := Instr.writes
  reads := Instr.reads
  frame s slots := frame (s.reg .sp) slots
  saved s := [s.reg .sp - 8]
  Aligned s := (s.reg .sp + 8) % 16 = 0

/-! ## Rules -/

/-- The registers that values are computed in. -/
def Reg.isValue : Reg → Bool
  | a | c | d => true
  | _ => false

/-- Instructions that compute with words in registers, or jump. -/
def Instr.quiet : Instr → Bool
  | moveL _ dst | moveImmL _ dst | arithL _ _ dst | subImmL _ dst | negL dst => dst.isValue
  | testL _ _ | compareL _ _ | compareImmL _ _ | extendSign | divideL _ | setByte _ | widenByte => true
  | jump l | jumpIf _ l => l.handled
  | _ => false

def Instr.goal? : Instr → Option Label
  | jump l | jumpIf _ l => some l
  | _ => none

/-- From which shapes to which ones the instructions of compiled code lead. -/
inductive Flow : Instr → Shape → Shape → Prop
  | quiet {i : Instr} {d : Nat} (h : i.quiet = true) : Flow i ⟨d, .word⟩ ⟨d, .word⟩
  | moveImm {n d : Nat} {k : Known} (h : k.Idle) : Flow (.moveImmL n .a) ⟨d, k⟩ ⟨d, .word⟩
  | reserve {d : Nat} : Flow (.subImmQ 16 .sp) ⟨d, .word⟩ ⟨d + 1, .opened⟩
  | fill {d : Nat} : Flow (.store .a 0 .sp) ⟨d + 1, .opened⟩ ⟨d + 1, .word⟩
  | storeTop {d : Nat} : Flow (.store .a 0 .sp) ⟨d + 1, .word⟩ ⟨d + 1, .word⟩
  | loadTop {r : Reg} {d : Nat} (h : r = .a ∨ r = .c) :
    Flow (.load 0 .sp r) ⟨d + 1, .word⟩ ⟨d + 1, .word⟩
  | loadSecond {d : Nat} : Flow (.load 16 .sp .a) ⟨d + 2, .word⟩ ⟨d + 2, .word⟩
  | drop {d : Nat} : Flow (.addImmQ 16 .sp) ⟨d + 1, .word⟩ ⟨d, .word⟩
  | dropBoth {d : Nat} : Flow (.addImmQ 32 .sp) ⟨d + 2, .word⟩ ⟨d, .word⟩
  | storeSlot {offset : Int} {d : Nat} : Flow (.store .a offset .bp) ⟨d, .word⟩ ⟨d, .word⟩
  | loadSlot {offset : Int} {d : Nat} {k : Known} (h : k.Idle) :
    Flow (.load offset .bp .a) ⟨d, k⟩ ⟨d, .loaded⟩
  | copy {d : Nat} : Flow (.moveQ .a .d) ⟨d, .loaded⟩ ⟨d, .copied⟩
  | half {d : Nat} : Flow (.shiftRightQ 32 .d) ⟨d, .copied⟩ ⟨d, .tested⟩
  | assigned {d : Nat} : Flow (.jumpIf .nz (.trap "unbound")) ⟨d, .tested⟩ ⟨d, .word⟩

/-- Quiet instructions handle no operands. -/
theorem operands_of_quiet {i : Instr} (h : i.quiet = true) (s : State) :
    i.writes s = none ∧ i.reads s = none := by
  cases i <;> first | exact ⟨rfl, rfl⟩ | cases h

theorem net_of_quiet {i : Instr} (h : i.quiet = true) : i.net = 0 := by
  cases i <;> first | rfl | cases h

theorem handled_of_quiet {i : Instr} {l : Label} (h : i.quiet = true) (hgoal : i.goal? = some l) :
    l.handled = true := by
  cases i with
  | jump l' | jumpIf _ l' =>
    cases hgoal
    exact h
  | _ => cases hgoal

/-- An instruction that accesses a slot accesses one of the first ones. -/
def Instr.Within (slots : Nat) : Instr → Prop
  | store _ offset .bp | load offset .bp _ => ∃ k < slots, offset = slotOffset (k : Nat)
  | _ => True

namespace Flow

variable {i : Instr} {a b : Shape} {l : Label}

theorem depth_eq (h : Flow i a b) : (b.depth : Int) = a.depth + i.net := by
  cases h with
  | quiet h => rw [net_of_quiet h, Int.add_zero]
  | @reserve d => rfl
  | @drop d =>
    show (d : Int) = (d + 1 : Nat) + -1
    omega
  | @dropBoth d =>
    show (d : Int) = (d + 2 : Nat) + -2
    omega
  | _ => exact (Int.add_zero _).symm

theorem level (h : Flow i a b) (hgoal : i.goal? = some l) (hl : l.isTrap = false) :
    a.known = .word ∧ b = a := by
  cases h with
  | quiet h => exact ⟨rfl, rfl⟩
  | assigned =>
    cases hgoal
    cases hl
  | _ => cases hgoal

theorem handled (h : Flow i a b) (hgoal : i.goal? = some l) : l.handled = true := by
  cases h with
  | quiet h => exact handled_of_quiet h hgoal
  | assigned =>
    cases hgoal
    rfl
  | _ => cases hgoal

end Flow

/-- The registers and what a shape says of them. -/
def discipline : Discipline platform where
  Flow := Flow
  goal? := Instr.goal?
  depth_eq := Flow.depth_eq
  level := Flow.level
  handled := Flow.handled
  Based f s := ∀ k : Nat, s.reg .bp + slotOffset k = f.slot k
  Knows known s := known.Holds (s.reg .a) (s.reg .d = s.reg .a)
    (s.zero = some (decide (s.reg .a >>> (32 : Nat) = 0)))
  Within n i := i.Within n

section Sound

variable {f : Frame} {P : Origin} {a b : Shape} {i : Instr} {s s' : State} {l : Label}

theorem exists_of_needing {α : Type} {known : Option α} {next : α → Effect State Stop}
    {e : Effect State Stop} (h : needing known next = e) (he : e ≠ .stuck) :
    ∃ n, known = some n ∧ next n = e := by
  cases known with
  | none => exact absurd h.symm he
  | some n => exact ⟨n, rfl, h⟩

/-- A jump changes nothing. -/
theorem exec_jump (h : i.exec s = .jump l s') : i.goal? = some l ∧ s' = s := by
  cases i with
  | jump l' =>
    cases h
    exact ⟨rfl, rfl⟩
  | jumpIf cond l' =>
    obtain ⟨holds, -, h⟩ := exists_of_needing h (by simp)
    split at h
    · cases h
      exact ⟨rfl, rfl⟩
    · cases h
  | pop | load | setByte =>
    obtain ⟨n, -, h⟩ := exists_of_needing h (by simp)
    cases h
  | shiftRightQ =>
    simp only [Instr.exec] at h
    split at h <;> cases h
  | divideL =>
    simp only [Instr.exec, State.divide] at h
    split at h <;> cases h
  | arithL op => cases op <;> cases h
  | _ => cases h

/-- Quiet instructions that go on change neither memory nor the registers of the frame, and leave a
word in the result register. -/
theorem quiet_next (h : i.quiet = true) (hword : IsWord (s.reg .a)) (hexec : i.exec s = .next s') :
    s'.memory = s.memory ∧ s'.reg .sp = s.reg .sp ∧ s'.reg .bp = s.reg .bp ∧
      IsWord (s'.reg .a) := by
  have hset : ∀ (r : Reg) (n : Int) (u : State), r.isValue = true → u.memory = s.memory →
      u.reg = s.reg → (u.setLow r n).memory = s.memory ∧ (u.setLow r n).reg .sp = s.reg .sp ∧
        (u.setLow r n).reg .bp = s.reg .bp ∧ IsWord ((u.setLow r n).reg .a) := by
    intro r n u hr hmemory hreg
    have hresult : IsWord (u.reg .a) := hreg ▸ hword
    cases r with
    | a => exact ⟨hmemory, congrFun hreg .sp, congrFun hreg .bp, isWord_low n⟩
    | c | d => exact ⟨hmemory, congrFun hreg .sp, congrFun hreg .bp, hresult⟩
    | _ => cases hr
  cases i with
  | moveL _ dst | moveImmL _ dst =>
    cases hexec
    exact hset dst _ s h rfl rfl
  | arithL op src dst =>
    cases op with
    | imul =>
      cases hexec
      exact hset dst _ s.unflag h rfl rfl
    | add | sub =>
      cases hexec
      exact hset dst _ (s.flag _) h rfl rfl
  | subImmL n dst =>
    cases hexec
    exact hset dst _ (s.flag _) h rfl rfl
  | negL dst =>
    cases hexec
    exact hset dst _ (s.flag _) h rfl rfl
  | testL _ _ | compareL _ _ | compareImmL _ _ =>
    cases hexec
    exact ⟨rfl, rfl, rfl, hword⟩
  | extendSign =>
    cases hexec
    exact ⟨rfl, rfl, rfl, hword⟩
  | divideL r =>
    simp only [Instr.exec, State.divide] at hexec
    split at hexec
    · cases hexec
    · cases hexec
      exact ⟨rfl, rfl, rfl, isWord_low _⟩
  | setByte cond =>
    obtain ⟨holds, -, hexec⟩ := exists_of_needing hexec (by simp)
    cases hexec
    refine ⟨rfl, rfl, rfl, ?_⟩
    show IsWord (s.reg .a - s.reg .a % 0x100 + if holds then 1 else 0)
    unfold IsWord at hword ⊢
    split <;> omega
  | widenByte =>
    cases hexec
    exact ⟨rfl, rfl, rfl, isWord_low _⟩
  | jump l => cases hexec
  | jumpIf cond l =>
    obtain ⟨holds, -, hexec⟩ := exists_of_needing hexec (by simp)
    split at hexec
    · cases hexec
    · cases hexec
      exact ⟨rfl, rfl, rfl, hword⟩
  | _ => cases h

theorem flow_next (hfits : discipline.Fits f P a s) (hflow : Flow i a b)
    (hwithin : discipline.Within f.slots i) (hexec : i.exec s = .next s') :
    discipline.Fits f (P.after (i.writes s) s'.memory) b s' := by
  obtain ⟨hsp, hbased, hknown, hkeeps⟩ := hfits
  change s.reg .sp = _ at hsp
  change f.Keeps P _ s.memory at hkeeps
  cases hflow with
  | quiet h =>
    obtain ⟨hmemory, hsp', hbase, hword⟩ := quiet_next h hknown hexec
    refine ⟨hsp'.trans hsp, fun k => (congrArg (· + slotOffset k) hbase).trans (hbased k), hword, ?_⟩
    show f.Keeps _ _ s'.memory
    rw [hmemory]
    exact hkeeps.after _
  | moveImm h =>
    cases hexec
    rw [h.filled] at hkeeps
    exact ⟨hsp, hbased, isWord_low _, hkeeps.after _⟩
  | @reserve d =>
    cases hexec
    refine ⟨?_, hbased, hknown, hkeeps.after _⟩
    show s.reg .sp - 16 = f.base - 16 * ((d + 1 : Nat) : Int)
    dsimp only at hsp
    omega
  | @fill d | @storeTop d =>
    cases hexec
    have haddress : s.reg .sp + 0 = f.operand d :=
      (Int.add_zero _).trans (Frame.operand_of_sp hsp)
    have hkeeps : f.Keeps P d s.memory := hkeeps.fewer (by simp [Shape.filled])
    refine ⟨hsp, hbased, hknown, ?_⟩
    show f.Keeps (P.after (some (s.reg .sp + 0, s.reg .a)) (s.memory.store (s.reg .sp + 0) (s.reg .a)))
      _ (s.memory.store (s.reg .sp + 0) (s.reg .a))
    rw [haddress]
    exact hkeeps.push hknown
  | @loadTop r d h =>
    have haddress : s.reg .sp + 0 = f.operand d :=
      (Int.add_zero _).trans (Frame.operand_of_sp hsp)
    obtain ⟨n, hn, hexec⟩ := exists_of_needing hexec (by simp)
    cases hexec
    have hword := hkeeps.isWord (Nat.lt_succ_self d) haddress hn
    rcases h with rfl | rfl
    · exact ⟨hsp, hbased, hword, hkeeps.after none⟩
    · exact ⟨hsp, hbased, hknown, hkeeps.after none⟩
  | @loadSecond d =>
    have haddress : s.reg .sp + 16 = f.operand d := by
      unfold Frame.operand
      dsimp only at hsp
      omega
    obtain ⟨n, hn, hexec⟩ := exists_of_needing hexec (by simp)
    cases hexec
    have hword := hkeeps.isWord (Nat.lt_add_of_pos_right (by decide)) haddress hn
    exact ⟨hsp, hbased, hword, hkeeps.after none⟩
  | @drop d =>
    cases hexec
    refine ⟨?_, hbased, hknown, (hkeeps.fewer (Nat.le_succ d)).after _⟩
    show s.reg .sp + 16 = f.base - 16 * (d : Int)
    dsimp only at hsp
    omega
  | @dropBoth d =>
    cases hexec
    refine ⟨?_, hbased, hknown, (hkeeps.fewer (Nat.le_add_right d 2)).after _⟩
    show s.reg .sp + 32 = f.base - 16 * (d : Int)
    dsimp only at hsp
    omega
  | storeSlot =>
    cases hexec
    obtain ⟨k, hk, rfl⟩ := hwithin
    refine ⟨hsp, hbased, hknown, ?_⟩
    show f.Keeps (P.after none (s.memory.store (s.reg .bp + slotOffset k) (s.reg .a))) _
      (s.memory.store (s.reg .bp + slotOffset k) (s.reg .a))
    rw [hbased k]
    exact hkeeps.storeSlot hk hknown none
  | loadSlot h =>
    obtain ⟨n, hn, hexec⟩ := exists_of_needing hexec (by simp)
    cases hexec
    obtain ⟨k, hk, rfl⟩ := hwithin
    have hcell := hkeeps.isCell hk (hbased k) hn
    rw [h.filled] at hkeeps
    exact ⟨hsp, hbased, hcell, hkeeps.after _⟩
  | copy =>
    cases hexec
    exact ⟨hsp, hbased, ⟨hknown, rfl⟩, hkeeps.after _⟩
  | half =>
    obtain ⟨hcell, hcopy⟩ := hknown
    have hbounds := hcell.bounds
    rw [← hcopy] at hbounds
    simp only [Instr.exec, if_pos hbounds] at hexec
    cases hexec
    refine ⟨hsp, hbased, ⟨hcell, ?_⟩, hkeeps.after _⟩
    show some (decide (s.reg .d >>> (32 : Nat) = 0)) = some (decide (s.reg .a >>> (32 : Nat) = 0))
    rw [hcopy]
  | assigned =>
    obtain ⟨hcell, hzero⟩ := hknown
    obtain ⟨holds, hholds, hexec⟩ := exists_of_needing hexec (by simp)
    split at hexec
    · cases hexec
    · rename_i hnot
      cases hexec
      have hhalf : s.reg .a >>> (32 : Nat) = 0 := by
        simp only [JumpCond.holds?, hzero] at hholds
        cases hholds
        simpa using hnot
      exact ⟨hsp, hbased, hcell.isWord hhalf, hkeeps.after _⟩

/-- Operands are written below the frame. -/
theorem writes_below (hfits : discipline.Fits f P a s) (hflow : Flow i a b) {address v : Int}
    (hwrites : i.writes s = some (address, v)) : address + 8 ≤ f.base := by
  have hsp := hfits.sp
  change s.reg .sp = _ at hsp
  cases hflow with
  | quiet h =>
    rw [(operands_of_quiet h s).1] at hwrites
    cases hwrites
  | @fill d | @storeTop d =>
    cases hwrites
    have hsp : s.reg .sp = f.base - 16 * ((d + 1 : Nat) : Int) := hsp
    omega
  | _ => cases hwrites

theorem reads_operand (hfits : discipline.Fits f P a s) (hflow : Flow i a b) {address : Int}
    (hreads : i.reads s = some address) : ∃ k < a.filled, address = f.operand k := by
  have hsp := hfits.sp
  change s.reg .sp = _ at hsp
  cases hflow with
  | quiet h =>
    rw [(operands_of_quiet h s).2] at hreads
    cases hreads
  | @loadTop r d h =>
    cases hreads
    exact ⟨d, Nat.lt_succ_self d, (Int.add_zero _).trans (Frame.operand_of_sp hsp)⟩
  | @loadSecond d =>
    cases hreads
    refine ⟨d, Nat.lt_add_of_pos_right (by decide), ?_⟩
    have hsp : s.reg .sp = f.base - 16 * ((d + 2 : Nat) : Int) := hsp
    unfold Frame.operand
    omega
  | _ => cases hreads

end Sound

/-! ## Code -/

/-- The rules cover the expansions of the operations. -/
theorem covers : discipline.toRules.Covers .x86 expand where
  label l := rfl
  checked {out o a b} h n := by
    cases h with
    | pushImm h =>
      exact ⟨.instr (.moveImm h) (.instr .reserve (.instr .fill (.nil _))), List.nil_subset _⟩
    | loadZero h => exact ⟨.instr (.moveImm h) (.nil _), List.nil_subset _⟩
    | loadVar h =>
      exact ⟨.instr (.loadSlot h) (.instr .copy (.instr .half (.instr .assigned (.nil _)))),
        List.nil_subset _⟩
    | pushResult => exact ⟨.instr .reserve (.instr .fill (.nil _)), List.nil_subset _⟩
    | popResult => exact ⟨.instr (.loadTop (.inl rfl)) (.instr .drop (.nil _)), List.nil_subset _⟩
    | popOperands =>
      exact ⟨.instr (.loadTop (.inr rfl)) (.instr .loadSecond (.instr .dropBoth (.nil _))),
        List.nil_subset _⟩
    | storeTop => exact ⟨.instr .storeTop (.nil _), List.nil_subset _⟩
    | storeVar => exact ⟨.instr .storeSlot (.nil _), List.nil_subset _⟩
    | negate => exact ⟨.instr (.quiet rfl) (.nil _), List.nil_subset _⟩
    | label => exact ⟨.label (.nil _), List.nil_subset _⟩
    | @branch l d hl h => exact .leave (.quiet (Label.handled_of_isTrap hl)) rfl hl h
    | @branchIfNotPositive l d hl h =>
      have htest : discipline.Checked out [.instr (.testL .a .a)] ⟨d, .word⟩ ⟨d, .word⟩ :=
        ⟨.instr (.quiet rfl) (.nil _), List.nil_subset _⟩
      exact htest.append (.leave (.quiet (Label.handled_of_isTrap hl)) rfl hl h)
    | @operation op d h =>
      cases op with
      | assign => exact absurd rfl h
      | add | sub | mul => exact ⟨.instr (.quiet rfl) (.nil _), List.nil_subset _⟩
      | div =>
        refine ⟨.instr (.quiet rfl) (.instr (.quiet rfl) (.instr (.quiet rfl) (.instr (.quiet rfl)
          (.instr (.quiet rfl) (.instr (.quiet rfl) (.instr (.quiet rfl) (.label (.instr
          (.quiet rfl) (.label (.nil _)))))))))), fun mark hmark => List.mem_append_left _ ?_⟩
        show mark ∈ [(Label.fresh "div_neg" (n + 1), (d : Int)),
          (Label.fresh "div_end" (n + 2), (d : Int))]
        exact hmark
      | pow =>
        refine ⟨.instr (.quiet rfl) (.instr (.quiet rfl) (.instr (.quiet rfl) (.instr (.quiet rfl)
          (.label (.instr (.quiet rfl) (.instr (.quiet rfl) (.instr (.quiet rfl) (.label (.instr
          (.quiet rfl) (.nil _)))))))))), fun mark hmark => List.mem_append_left _ ?_⟩
        have hmark : mark ∈ [(Label.fresh "pow_end" (n + 2), (d : Int)),
          (Label.fresh "pow_loop" (n + 1), (d : Int))] := hmark
        show mark ∈ [(Label.fresh "pow_loop" (n + 1), (d : Int)),
          (Label.fresh "pow_end" (n + 2), (d : Int))]
        exact (List.Perm.swap _ _ []).mem_iff.1 hmark
      | _ =>
        exact ⟨.instr (.quiet rfl) (.instr (.quiet rfl) (.instr (.quiet rfl) (.nil _))),
          List.nil_subset _⟩

/-- Compiled code accesses the slots of its frame only. -/
theorem within_expand {step : Step} {n : Nat} (h : step.op.Inner n) :
    ∀ i, .instr i ∈ expand step → i.Within n := by
  obtain ⟨op, scratch⟩ := step
  cases op with
  | loadVar slot =>
    obtain ⟨k, hk, rfl⟩ := h
    simp only [expand, List.mem_cons, List.not_mem_nil, or_false, Line.instr.injEq,
      forall_eq_or_imp, forall_eq]
    exact ⟨⟨k, hk, rfl⟩, trivial, trivial, trivial⟩
  | storeVar slot =>
    obtain ⟨k, hk, rfl⟩ := h
    simp only [expand, List.mem_singleton, Line.instr.injEq, forall_eq]
    exact ⟨k, hk, rfl⟩
  | arith op =>
    cases op with
    | div =>
      rcases scratch with _ | ⟨byMinusOne, _ | ⟨done, _ | ⟨_, _⟩⟩⟩ <;>
        simp [expand, expandDiv, Instr.Within]
    | _ => simp [expand, Instr.Within]
  | compare op => cases op <;> simp [expand, cond?, Instr.Within]
  | pow =>
    rcases scratch with _ | ⟨loop, _ | ⟨done, _ | ⟨_, _⟩⟩⟩ <;>
      simp [expand, expandPow, Instr.Within]
  | _ => first | exact h.elim | simp [expand, pushResult, Instr.Within]

theorem sound : discipline.Sound where
  lines step := rfl
  covers := covers
  expands := expands
  within := within_expand
  jump := exec_jump
  next := flow_next
  writes hfits hflow hwrites := writes_below hfits hflow hwrites
  reads hfits hflow hreads := reads_operand hfits hflow hreads
  ends := by
    rintro ⟨op, scratch⟩ (rfl | ⟨code, rfl⟩) i hi
    · have hi : Line.instr i ∈ ([.moveQ .bp .sp, .pop .bp, .ret] : List Instr).map .instr := hi
      obtain ⟨i', hi', heq⟩ := List.mem_map.1 hi
      cases heq
      simp only [List.mem_cons, List.not_mem_nil, or_false] at hi'
      rcases hi' with rfl | rfl | rfl <;> rfl
    · cases List.mem_singleton.1 hi
      rfl
  epilogue := ⟨_, _, rfl, fun s => ⟨rfl, rfl⟩⟩
  enter n := by
    refine ⟨entering n, rfl, fun s => ?_⟩
    obtain ⟨s', hrun, hR⟩ := run_entering s n
    refine ⟨s', hrun, fun P => ⟨?_, fun k => ?_, trivial, fun k hk => ?_,
      fun j hj => absurd hj (Nat.not_lt_zero j)⟩⟩
    · exact hR.sp.trans (by simp [StackState.entered, platform])
    · exact congrArg (· + slotOffset k) hR.framePointer
    · have hnone : (StackState.entered n).slots[k]? = some none := List.getElem?_replicate_of_lt hk
      exact ⟨_, (hR.holds.slots k none hnone).2, .inl rfl⟩
  frame s n := by
    refine ⟨rfl, fun hs => ?_, ?_⟩
    · show (s.reg .sp - 8 - frameSize n) % 16 = 0
      have hs : (s.reg .sp + 8) % 16 = 0 := hs
      unfold frameSize
      omega
    · have hnonneg := frameSize_nonneg n
      show ∀ b ∈ [s.reg .sp - 8], s.reg .sp - 8 - frameSize n ≤ b
      simp only [List.mem_singleton, forall_eq]
      omega

end Imp32.Assembly.X86
