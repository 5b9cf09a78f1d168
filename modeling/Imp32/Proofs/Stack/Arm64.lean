import Imp32.Proofs.Backend.Arm64.Program
import Imp32.Proofs.Stack.Linked

/-!
# Stack discipline on AArch64

An operand has 16 bytes, and the slots are from the frame base in `x19` up. Operands are pushed from
`x0`, so that a shape says what `x0` holds; in front of the jump that an unassigned slot takes, `x9`
holds the high half of what has been loaded (`Knows`).
-/

namespace Imp32.Assembly.Arm64

/-- By how many operands an instruction makes the stack deeper. -/
def Instr.net : Instr → Int
  | push _ => 1
  | pop _ => -1
  | _ => 0

/-- The address that an instruction writes an operand to, and the operand. -/
def Instr.writes (i : Instr) (s : State) : Option (Int × Int) :=
  match i with
  | push r => some (s.reg .sp - 16, s.reg r)
  | storeTop r => some (s.reg .sp, s.reg r)
  | _ => none

/-- The address that an instruction reads an operand from. -/
def Instr.reads (i : Instr) (s : State) : Option Int :=
  match i with
  | pop _ => some (s.reg .sp)
  | _ => none

/-- The frame whose slots begin at an address. -/
def frameFrom (base : Int) (slots : Nat) : Frame where
  base := base
  limit := base + 8 * slots
  slots := slots
  slot k := base + 8 * k
  base_le := by omega
  within k hk := by omega
  apart j hj k hk hjk := by omega

/-- AArch64 with the lines that operations expand to. The stack pointer is aligned to 16 bytes. Of the
frame's size only the low half counts, since the amount that it is reserved with has 32 bits. -/
def platform : Platform Instr State Stop where
  target := .arm64
  expand := expand
  text := Instr.text
  exec := Instr.exec
  sp s := s.reg .sp
  memory := State.memory
  net := Instr.net
  writes := Instr.writes
  reads := Instr.reads
  frame s slots := frameFrom (s.reg .sp - 32 - low (frameSize slots)) slots
  saved s := [s.reg .sp - 32, s.reg .sp - 16, s.reg .sp - 8]
  Aligned s := s.reg .sp % 16 = 0

/-! ## Rules -/

/-- The registers that values are computed in. -/
def Reg.isValue : Reg → Bool
  | r0 | r1 | r2 => true
  | _ => false

/-- Instructions that compute with words in registers, or jump. -/
def Instr.quiet : Instr → Bool
  | moveW dst _ | moveImmW dst _ | moveHigh dst _ | arithW _ dst _ _ | negW dst _
  | subsImmW dst _ _ | setW dst _ => dst.isValue
  | compareW _ _ | compareImmW _ _ => true
  | jump l | jumpIf _ l | jumpIfZeroW _ l | jumpIfBitW _ _ l => l.handled
  | _ => false

def Instr.goal? : Instr → Option Label
  | jump l | jumpIf _ l | jumpIfZeroW _ l | jumpIfNonzeroX _ l | jumpIfBitW _ _ l => some l
  | _ => none

/-- From which shapes to which ones the instructions of compiled code lead. -/
inductive Flow : Instr → Shape → Shape → Prop
  | quiet {i : Instr} {d : Nat} (h : i.quiet = true) : Flow i ⟨d, .word⟩ ⟨d, .word⟩
  | moveImm {n d : Nat} {k : Known} (h : k.Idle) : Flow (.moveImmW .r0 n) ⟨d, k⟩ ⟨d, .word⟩
  | moveLow {n d : Nat} {k : Known} (h : k.Idle) : Flow (.moveLow .r0 n) ⟨d, k⟩ ⟨d, .word⟩
  | push {d : Nat} : Flow (.push .r0) ⟨d, .word⟩ ⟨d + 1, .word⟩
  | pop {r : Reg} {d : Nat} (h : r = .r0 ∨ r = .r1) : Flow (.pop r) ⟨d + 1, .word⟩ ⟨d, .word⟩
  | storeTop {d : Nat} : Flow (.storeTop .r0) ⟨d + 1, .word⟩ ⟨d + 1, .word⟩
  | storeSlot {offset : Int} {d : Nat} : Flow (.store .r0 .r19 offset) ⟨d, .word⟩ ⟨d, .word⟩
  | loadSlot {offset : Int} {d : Nat} {k : Known} (h : k.Idle) :
    Flow (.load .r0 .r19 offset) ⟨d, k⟩ ⟨d, .loaded⟩
  | half {d : Nat} : Flow (.shiftRightX .r9 .r0 32) ⟨d, .loaded⟩ ⟨d, .tested⟩
  | assigned {d : Nat} : Flow (.jumpIfNonzeroX .r9 (.trap "unbound")) ⟨d, .tested⟩ ⟨d, .word⟩

/-- Quiet instructions handle no operands. -/
theorem operands_of_quiet {i : Instr} (h : i.quiet = true) (s : State) :
    i.writes s = none ∧ i.reads s = none := by
  cases i <;> first | exact ⟨rfl, rfl⟩ | cases h

theorem net_of_quiet {i : Instr} (h : i.quiet = true) : i.net = 0 := by
  cases i <;> first | rfl | cases h

theorem handled_of_quiet {i : Instr} {l : Label} (h : i.quiet = true) (hgoal : i.goal? = some l) :
    l.handled = true := by
  cases i with
  | jump l' | jumpIf _ l' | jumpIfZeroW _ l' | jumpIfBitW _ _ l' =>
    cases hgoal
    exact h
  | jumpIfNonzeroX r l' => cases h
  | _ => cases hgoal

/-- An instruction that accesses a slot accesses one of the first ones. -/
def Instr.Within (slots : Nat) : Instr → Prop
  | store _ _ offset | load _ _ offset => ∃ k < slots, offset = (k : Nat) * 8
  | _ => True

namespace Flow

variable {i : Instr} {a b : Shape} {l : Label}

theorem depth_eq (h : Flow i a b) : (b.depth : Int) = a.depth + i.net := by
  cases h with
  | quiet h => rw [net_of_quiet h, Int.add_zero]
  | push => rfl
  | @pop r d h =>
    show (d : Int) = (d + 1 : Nat) + -1
    omega
  | _ => exact (Int.add_zero _).symm

theorem level (h : Flow i a b) (hgoal : i.goal? = some l) (hl : l.isTrap = false) :
    a.known = .word ∧ b = a := by
  cases h with
  | quiet h => exact ⟨rfl, rfl⟩
  | assigned =>
    cases hgoal
    cases hl
  | _ => cases hgoal

theorem handled (h : Flow i a b) (hgoal : i.goal? = some l) : l.handled = true := by
  cases h with
  | quiet h => exact handled_of_quiet h hgoal
  | assigned =>
    cases hgoal
    rfl
  | _ => cases hgoal

end Flow

/-- The registers and what a shape says of them. -/
def discipline : Discipline platform where
  Flow := Flow
  goal? := Instr.goal?
  depth_eq := Flow.depth_eq
  level := Flow.level
  handled := Flow.handled
  Based f s := ∀ k : Nat, s.reg .r19 + k * 8 = f.slot k
  Knows known s := known.Holds (s.reg .r0) True (s.reg .r9 = s.reg .r0 >>> (32 : Nat))
  Within n i := i.Within n

section Sound

variable {f : Frame} {P : Origin} {a b : Shape} {i : Instr} {s s' : State} {l : Label}

/-- Quiet instructions that go on change neither memory nor the registers of the frame, and leave a
word in the result register. -/
theorem quiet_next (h : i.quiet = true) (hword : IsWord (s.reg .r0)) (hexec : i.exec s = .next s') :
    s'.memory = s.memory ∧ s'.reg .sp = s.reg .sp ∧ s'.reg .r19 = s.reg .r19 ∧
      IsWord (s'.reg .r0) := by
  have hset : ∀ (r : Reg) (n : Int) (u : State), r.isValue = true → u.memory = s.memory →
      u.reg = s.reg → (u.setLow r n).memory = s.memory ∧ (u.setLow r n).reg .sp = s.reg .sp ∧
        (u.setLow r n).reg .r19 = s.reg .r19 ∧ IsWord ((u.setLow r n).reg .r0) := by
    intro r n u hr hmemory hreg
    have hresult : IsWord (u.reg .r0) := hreg ▸ hword
    cases r with
    | r0 => exact ⟨hmemory, congrFun hreg .sp, congrFun hreg .r19, isWord_low n⟩
    | r1 | r2 => exact ⟨hmemory, congrFun hreg .sp, congrFun hreg .r19, hresult⟩
    | _ => cases hr
  cases i with
  | moveW dst _ | moveImmW dst _ | moveHigh dst _ | arithW _ dst _ _ | negW dst _ | setW dst _ =>
    cases hexec
    exact hset dst _ s h rfl rfl
  | subsImmW dst src n =>
    cases hexec
    exact hset dst _ (s.compare (s.reg src) n) h rfl rfl
  | compareW _ _ | compareImmW _ _ =>
    cases hexec
    exact ⟨rfl, rfl, rfl, hword⟩
  | jump l => cases hexec
  | jumpIf _ l | jumpIfZeroW _ l | jumpIfBitW _ _ l =>
    simp only [Instr.exec] at hexec
    split at hexec
    · cases hexec
    · cases hexec
      exact ⟨rfl, rfl, rfl, hword⟩
  | _ => cases h

theorem exists_of_loading {address : Int} {next : Int → Effect State Stop} {e : Effect State Stop}
    (h : loading s address next = e) (he : e ≠ .stuck) :
    ∃ n, s.memory address = some n ∧ next n = e := by
  unfold loading at h
  cases hm : s.memory address with
  | none =>
    rw [hm] at h
    exact absurd h.symm he
  | some n =>
    rw [hm] at h
    exact ⟨n, rfl, h⟩

/-- A jump changes nothing. -/
theorem exec_jump (h : i.exec s = .jump l s') : i.goal? = some l ∧ s' = s := by
  cases i with
  | jump l' =>
    cases h
    exact ⟨rfl, rfl⟩
  | jumpIf _ l' | jumpIfZeroW _ l' | jumpIfNonzeroX _ l' | jumpIfBitW _ _ l' =>
    simp only [Instr.exec] at h
    split at h
    · cases h
      exact ⟨rfl, rfl⟩
    · cases h
  | popPair =>
    obtain ⟨m, -, h⟩ := exists_of_loading h (by simp)
    obtain ⟨n, -, h⟩ := exists_of_loading h (by simp)
    cases h
  | pop | load =>
    obtain ⟨n, -, h⟩ := exists_of_loading h (by simp)
    cases h
  | shiftRightX =>
    simp only [Instr.exec] at h
    split at h <;> cases h
  | _ => cases h

theorem flow_next (hfits : discipline.Fits f P a s) (hflow : Flow i a b)
    (hwithin : discipline.Within f.slots i) (hexec : i.exec s = .next s') :
    discipline.Fits f (P.after (i.writes s) s'.memory) b s' := by
  obtain ⟨hsp, hbased, hknown, hkeeps⟩ := hfits
  change s.reg .sp = _ at hsp
  change f.Keeps P _ s.memory at hkeeps
  cases hflow with
  | quiet h =>
    obtain ⟨hmemory, hsp', hbase, hword⟩ := quiet_next h hknown hexec
    refine ⟨hsp'.trans hsp, fun k => (congrArg (· + (k : Int) * 8) hbase).trans (hbased k), hword, ?_⟩
    show f.Keeps _ _ s'.memory
    rw [hmemory]
    exact hkeeps.after _
  | moveImm h =>
    cases hexec
    rw [h.filled] at hkeeps
    exact ⟨hsp, hbased, isWord_low _, hkeeps.after _⟩
  | moveLow h =>
    cases hexec
    rw [h.filled] at hkeeps
    exact ⟨hsp, hbased, isWord_low _, hkeeps.after _⟩
  | @push d =>
    cases hexec
    have haddress : s.reg .sp - 16 = f.operand d := by
      unfold Frame.operand
      dsimp only at hsp
      omega
    refine ⟨?_, hbased, hknown, ?_⟩
    · show s.reg .sp - 16 = f.base - 16 * ((d + 1 : Nat) : Int)
      dsimp only at hsp
      omega
    · show f.Keeps (P.after (some (s.reg .sp - 16, s.reg .r0))
        (s.memory.store (s.reg .sp - 16) (s.reg .r0))) _ (s.memory.store (s.reg .sp - 16) (s.reg .r0))
      rw [haddress]
      exact hkeeps.push hknown
  | @pop r d h =>
    have haddress : s.reg .sp = f.operand d := Frame.operand_of_sp hsp
    obtain ⟨n, hn, hexec⟩ := exists_of_loading hexec (by simp)
    cases hexec
    have hword := hkeeps.isWord (Nat.lt_succ_self d) haddress hn
    have hkeeps' := (hkeeps.fewer (Nat.le_succ d)).after none
    refine ⟨?_, ?_, ?_, hkeeps'⟩
    · show s.reg .sp + 16 = f.base - 16 * (d : Int)
      dsimp only at hsp
      omega
    · rcases h with rfl | rfl <;> exact hbased
    · rcases h with rfl | rfl
      · exact hword
      · exact hknown
  | @storeTop d =>
    cases hexec
    have haddress : s.reg .sp = f.operand d := Frame.operand_of_sp hsp
    refine ⟨hsp, hbased, hknown, ?_⟩
    show f.Keeps (P.after (some (s.reg .sp, s.reg .r0)) (s.memory.store (s.reg .sp) (s.reg .r0))) _
      (s.memory.store (s.reg .sp) (s.reg .r0))
    rw [haddress]
    exact (hkeeps.fewer (Nat.le_succ d)).push hknown
  | storeSlot =>
    cases hexec
    obtain ⟨k, hk, rfl⟩ := hwithin
    refine ⟨hsp, hbased, hknown, ?_⟩
    show f.Keeps (P.after none (s.memory.store (s.reg .r19 + (k : Int) * 8) (s.reg .r0))) _
      (s.memory.store (s.reg .r19 + (k : Int) * 8) (s.reg .r0))
    rw [hbased k]
    exact hkeeps.storeSlot hk hknown none
  | loadSlot h =>
    obtain ⟨n, hn, hexec⟩ := exists_of_loading hexec (by simp)
    cases hexec
    obtain ⟨k, hk, rfl⟩ := hwithin
    have hcell := hkeeps.isCell hk (hbased k) hn
    rw [h.filled] at hkeeps
    exact ⟨hsp, hbased, hcell, hkeeps.after _⟩
  | half =>
    have hbounds := IsCell.bounds hknown
    simp only [Instr.exec, if_pos hbounds] at hexec
    cases hexec
    exact ⟨hsp, hbased, ⟨hknown, rfl⟩, hkeeps.after _⟩
  | assigned =>
    obtain ⟨hcell, hhalf⟩ := hknown
    simp only [Instr.exec] at hexec
    split at hexec
    · cases hexec
    · rename_i hzero
      cases hexec
      rw [hhalf, Classical.not_not] at hzero
      exact ⟨hsp, hbased, hcell.isWord hzero, hkeeps.after _⟩

/-- Operands are written below the frame. -/
theorem writes_below (hfits : discipline.Fits f P a s) (hflow : Flow i a b) {address v : Int}
    (hwrites : i.writes s = some (address, v)) : address + 8 ≤ f.base := by
  have hsp := hfits.sp
  change s.reg .sp = _ at hsp
  cases hflow with
  | push =>
    cases hwrites
    omega
  | @storeTop d =>
    cases hwrites
    have hsp : s.reg .sp = f.base - 16 * ((d + 1 : Nat) : Int) := hsp
    omega
  | quiet h =>
    rw [(operands_of_quiet h s).1] at hwrites
    cases hwrites
  | _ => cases hwrites

theorem reads_operand (hfits : discipline.Fits f P a s) (hflow : Flow i a b) {address : Int}
    (hreads : i.reads s = some address) : ∃ k < a.filled, address = f.operand k := by
  have hsp := hfits.sp
  change s.reg .sp = _ at hsp
  cases hflow with
  | @pop r d h =>
    cases hreads
    exact ⟨d, Nat.lt_succ_self d, Frame.operand_of_sp hsp⟩
  | quiet h =>
    rw [(operands_of_quiet h s).2] at hreads
    cases hreads
  | _ => cases hreads

end Sound

/-! ## Code -/

/-- The rules cover the expansions of the operations. -/
theorem covers : discipline.toRules.Covers .arm64 expand where
  label l := rfl
  checked {out o a b} h n := by
    cases h with
    | @pushImm m d k h =>
      show discipline.Checked out ((moveBits .r0 (bits m)).map .instr ++ [.instr (.push .r0)]) _ _
      unfold moveBits
      split
      · exact ⟨.instr (.moveImm h) (.instr .push (.nil _)), List.nil_subset _⟩
      · exact ⟨.instr (.moveLow h) (.instr (.quiet rfl) (.instr .push (.nil _))),
          List.nil_subset _⟩
    | @operation op d h =>
      cases op with
      | assign => exact absurd rfl h
      | pow =>
        refine ⟨.instr (.quiet rfl) (.instr (.quiet rfl) (.instr (.quiet rfl) (.label (.instr
          (.quiet rfl) (.instr (.quiet rfl) (.instr (.quiet rfl) (.label (.instr (.quiet rfl)
          (.nil _))))))))), fun mark hmark => List.mem_append_left _ ?_⟩
        have hmark : mark ∈ [(Label.fresh "pow_end" (n + 2), (d : Int)),
          (Label.fresh "pow_loop" (n + 1), (d : Int))] := hmark
        show mark ∈ [(Label.fresh "pow_loop" (n + 1), (d : Int)),
          (Label.fresh "pow_end" (n + 2), (d : Int))]
        exact (List.Perm.swap _ _ []).mem_iff.1 hmark
      | add | sub | mul => exact ⟨.instr (.quiet rfl) (.nil _), List.nil_subset _⟩
      | _ => exact ⟨.instr (.quiet rfl) (.instr (.quiet rfl) (.nil _)), List.nil_subset _⟩
    | @branch l d hl h =>
      exact .leave (.quiet (Label.handled_of_isTrap hl)) rfl hl h
    | @branchIfNotPositive l d hl h =>
      have htest : discipline.Checked out [.instr (.compareImmW .r0 0)] ⟨d, .word⟩ ⟨d, .word⟩ :=
        ⟨.instr (.quiet rfl) (.nil _), List.nil_subset _⟩
      exact htest.append (.leave (.quiet (Label.handled_of_isTrap hl)) rfl hl h)
    | label => exact ⟨.label (.nil _), List.nil_subset _⟩
    | loadZero h => exact ⟨.instr (.moveImm h) (.nil _), List.nil_subset _⟩
    | loadVar h => exact ⟨.instr (.loadSlot h) (.instr .half (.instr .assigned (.nil _))), List.nil_subset _⟩
    | pushResult => exact ⟨.instr .push (.nil _), List.nil_subset _⟩
    | popResult => exact ⟨.instr (.pop (.inl rfl)) (.nil _), List.nil_subset _⟩
    | popOperands =>
      exact ⟨.instr (.pop (.inr rfl)) (.instr (.pop (.inl rfl)) (.nil _)), List.nil_subset _⟩
    | storeTop => exact ⟨.instr .storeTop (.nil _), List.nil_subset _⟩
    | storeVar => exact ⟨.instr .storeSlot (.nil _), List.nil_subset _⟩
    | negate => exact ⟨.instr (.quiet rfl) (.nil _), List.nil_subset _⟩

/-- Compiled code accesses the slots of its frame only. -/
theorem within_expand {step : Step} {n : Nat} (h : step.op.Inner n) :
    ∀ i, .instr i ∈ expand step → i.Within n := by
  obtain ⟨op, scratch⟩ := step
  cases op with
  | pushImm m =>
    unfold expand moveBits
    dsimp only
    split <;> simp [Instr.Within]
  | loadVar slot =>
    obtain ⟨k, hk, rfl⟩ := h
    simp only [expand, List.mem_cons, List.not_mem_nil, or_false, Line.instr.injEq,
      forall_eq_or_imp, forall_eq]
    exact ⟨⟨k, hk, rfl⟩, trivial, trivial⟩
  | storeVar slot =>
    obtain ⟨k, hk, rfl⟩ := h
    simp only [expand, List.mem_singleton, Line.instr.injEq, forall_eq]
    exact ⟨k, hk, rfl⟩
  | arith op => cases op <;> simp [expand, arith?, Instr.Within]
  | compare op => cases op <;> simp [expand, cond?, Instr.Within]
  | pow =>
    rcases scratch with _ | ⟨loop, _ | ⟨done, _ | ⟨_, _⟩⟩⟩ <;>
      simp [expand, expandPow, Instr.Within]
  | _ => first | exact h.elim | simp [expand, Instr.Within]

theorem sound : discipline.Sound where
  lines step := rfl
  covers := covers
  expands := expands
  within := within_expand
  jump := exec_jump
  next := flow_next
  writes hfits hflow hwrites := writes_below hfits hflow hwrites
  reads hfits hflow hreads := reads_operand hfits hflow hreads
  ends := by
    rintro ⟨op, scratch⟩ (rfl | ⟨code, rfl⟩) i hi
    · have hi : Line.instr i ∈ ([.load .r19 .r29 (-16), .moveX .sp .r29, .popPair .r29 .r30,
        .ret] : List Instr).map .instr := hi
      obtain ⟨i', hi', heq⟩ := List.mem_map.1 hi
      cases heq
      simp only [List.mem_cons, List.not_mem_nil, or_false] at hi'
      rcases hi' with rfl | rfl | rfl | rfl <;> rfl
    · cases List.mem_singleton.1 hi
      rfl
  epilogue := ⟨_, _, rfl, fun s => ⟨rfl, rfl⟩⟩
  enter n := by
    refine ⟨entering n, rfl, fun s => ?_⟩
    have hslot : ∀ k : Nat, s.reg .sp - 32 - low (frameSize n) + (k * 8 : Nat) =
        (frameFrom (s.reg .sp - 32 - low (frameSize n)) n).slot k := by
      intro k
      show _ = _ + 8 * (k : Int)
      omega
    obtain ⟨s', hrun, hmemory, hsp, hbase, -⟩ := run_prologue s n hslot
    refine ⟨s', hrun, fun P => ⟨?_, fun k => ?_, trivial, ?_⟩⟩
    · exact hsp.trans (Int.sub_zero _).symm
    · refine Eq.trans ?_ (hslot k)
      rw [hbase, hsp, Int.natCast_mul]
      rfl
    · show Frame.Keeps _ P 0 s'.memory
      rw [hmemory]
      exact Frame.keeps_clear _ P _
  frame s n := by
    refine ⟨rfl, fun hs => ?_, ?_⟩
    · show (s.reg .sp - 32 - low (frameSize n)) % 16 = 0
      have hs : s.reg .sp % 16 = 0 := hs
      unfold low frameSize
      omega
    · have hlow := low_nonneg (frameSize n)
      show ∀ b ∈ [s.reg .sp - 32, s.reg .sp - 16, s.reg .sp - 8],
        s.reg .sp - 32 - low (frameSize n) ≤ b
      simp only [List.mem_cons, List.not_mem_nil, or_false, forall_eq_or_imp, forall_eq]
      omega

end Imp32.Assembly.Arm64
