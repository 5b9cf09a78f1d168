import Imp32.Proofs.Backend.Arm64.Machine
import Imp32.Proofs.Backend.Expansion

/-!
# AArch64 code does what the stack machine does

`Rel` relates the stack machine to the registers and the frame of a function, and the lines of each
operation answer what the operation does (`answered`), whatever the operands are.
-/

namespace Imp32.Assembly.Arm64

/-- The frame of a function that was entered with this stack pointer. Above it are the saved
registers. -/
def frame (sp : Int) (slots : Nat) : Frame where
  base := sp - 32 - frameSize slots
  limit := sp - 32
  slots := slots
  slot k := sp - 32 - frameSize slots + 8 * k
  base_le := by
    unfold frameSize
    omega
  within k hk := by
    unfold frameSize
    omega
  apart j hj k hk hjk := by omega

/-- Memory after the registers of the caller have been saved. -/
def savedMemory (start : State) : Memory :=
  ((start.memory.store (start.reg .sp - 16) (start.reg .r29)).store (start.reg .sp - 16 + 8)
    (start.reg .r30)).store (start.reg .sp - 16 - 16) (start.reg .r19)

section Saved

variable (start : State)

theorem savedMemory_r19 : savedMemory start (start.reg .sp - 32) = some (start.reg .r19) := by
  unfold savedMemory
  rw [show start.reg .sp - 32 = start.reg .sp - 16 - 16 by omega, Memory.store_self]

theorem savedMemory_r29 : savedMemory start (start.reg .sp - 16) = some (start.reg .r29) := by
  unfold savedMemory
  rw [Memory.store_apart (.inr (by omega)), Memory.store_apart (.inl (by omega)), Memory.store_self]

theorem savedMemory_r30 : savedMemory start (start.reg .sp - 16 + 8) = some (start.reg .r30) := by
  unfold savedMemory
  rw [Memory.store_apart (.inr (by omega)), Memory.store_self]

theorem savedMemory_above {a : Int} (ha : start.reg .sp ≤ a) :
    savedMemory start a = start.memory a := by
  unfold savedMemory
  rw [Memory.store_apart (.inr (by omega)), Memory.store_apart (.inr (by omega)),
    Memory.store_apart (.inr (by omega))]

end Saved

/-- The machine is where the stack machine is, in a function that was entered from `start`. -/
structure Rel (start : State) (slots : Nat) (s : StackState) (t : State) : Prop where
  holds : (frame (start.reg .sp) slots).Holds (savedMemory start) t.memory s.operands s.slots
  sp : t.reg .sp = (frame (start.reg .sp) slots).top s.operands
  slotBase : t.reg .r19 = (frame (start.reg .sp) slots).base
  framePointer : t.reg .r29 = start.reg .sp - 16
  result : Carries s.result (t.reg .r0)
  right : Carries s.right (t.reg .r1)

/-- The registers of the caller and the memory above its stack pointer are as they were. -/
structure Restored (start final : State) : Prop where
  reg : ∀ r ∈ [Reg.sp, .r19, .r29, .r30], final.reg r = start.reg r
  memory : ∀ a, start.reg .sp ≤ a → final.memory a = start.memory a

/-- How the machine stops where the stack machine does. -/
def Stops (start : State) (_pos : Nat) (o : StackStop) (_line : Nat) (r : Stop) : Prop :=
  match o, r with
  | .returned v, .returned t => Word.InRange v ∧ t.reg .r0 = low v ∧ Restored start t
  | .aborted code, .broken code' => code = code'
  | _, _ => False

/-! ## Keeping the relation -/

namespace Rel

variable {start t : State} {slots k : Nat} {s : StackState} {v n a b : Int} {rest : List Int}
  {r : Reg}

theorem head (h : Rel start slots s t) (hs : s.operands = v :: rest) :
    Word.InRange v ∧ t.memory (t.reg .sp) = some (low v) := by
  have hholds := h.holds
  rw [hs] at hholds
  rw [h.sp, hs]
  exact hholds.head

theorem slot (h : Rel start slots s t) {c : Option Int} (hk : s.slots[k]? = some c) :
    (∀ v, c = some v → Word.InRange v) ∧ t.memory (t.reg .r19 + (k : Int) * 8) = some (cell c) := by
  rw [h.slotBase, Int.mul_comm]
  exact h.holds.slots k c hk

/-- The registers that are neither of the stack machine nor of the frame are free. -/
theorem free (h : Rel start slots s t) (hr : r = .r2 ∨ r = .r9) (n : Int) :
    Rel start slots s (t.set r n) := by
  rcases hr with rfl | rfl
  · exact ⟨h.holds, h.sp, h.slotBase, h.framePointer, h.result, h.right⟩
  · exact ⟨h.holds, h.sp, h.slotBase, h.framePointer, h.result, h.right⟩

theorem compare (h : Rel start slots s t) (a b : Int) : Rel start slots s (t.compare a b) :=
  ⟨h.holds, h.sp, h.slotBase, h.framePointer, h.result, h.right⟩

theorem setResult (h : Rel start slots s t) (hv : Word.InRange v) (hn : n = low v) :
    Rel start slots { s with result := some v } (t.set .r0 n) := by
  refine ⟨h.holds, h.sp, h.slotBase, h.framePointer, fun w hw => ?_, h.right⟩
  cases hw
  exact ⟨hv, hn⟩

theorem setRight (h : Rel start slots s t) (hv : Word.InRange v) (hn : n = low v) :
    Rel start slots { s with right := some v } (t.set .r1 n) := by
  refine ⟨h.holds, h.sp, h.slotBase, h.framePointer, h.result, fun w hw => ?_⟩
  cases hw
  exact ⟨hv, hn⟩

theorem clobberResult (h : Rel start slots s t) (n : Int) :
    Rel start slots { s with result := none } (t.set .r0 n) :=
  ⟨h.holds, h.sp, h.slotBase, h.framePointer, nofun, h.right⟩

theorem clobberRight (h : Rel start slots s t) (n : Int) :
    Rel start slots { s with right := none } (t.set .r1 n) :=
  ⟨h.holds, h.sp, h.slotBase, h.framePointer, h.result, nofun⟩

theorem forgetResult (h : Rel start slots s t) : Rel start slots { s with result := none } t :=
  ⟨h.holds, h.sp, h.slotBase, h.framePointer, nofun, h.right⟩

theorem forgetRight (h : Rel start slots s t) : Rel start slots { s with right := none } t :=
  ⟨h.holds, h.sp, h.slotBase, h.framePointer, h.result, nofun⟩

theorem push (h : Rel start slots s t) (hv : Word.InRange v) (hn : n = low v) :
    Rel start slots { s with operands := v :: s.operands }
      ((t.store (t.reg .sp - 16) n).set .sp (t.reg .sp - 16)) := by
  have hpush := h.holds.push hv
  rw [Frame.top_cons, ← h.sp, ← hn] at hpush
  refine ⟨hpush, ?_, h.slotBase, h.framePointer, h.result, h.right⟩
  rw [Frame.top_cons, ← h.sp]
  rfl

theorem pop (h : Rel start slots s t) (hs : s.operands = v :: rest) :
    Rel start slots { s with operands := rest } (t.set .sp (t.reg .sp + 16)) := by
  have hholds := h.holds
  rw [hs] at hholds
  refine ⟨hholds.pop, ?_, h.slotBase, h.framePointer, h.result, h.right⟩
  have hsp := h.sp
  rw [hs, Frame.top_cons] at hsp
  show t.reg .sp + 16 = (frame (start.reg .sp) slots).top rest
  omega

theorem storeTop (h : Rel start slots s t) {w : Int} (hs : s.operands = w :: rest)
    (hv : Word.InRange v) (hn : n = low v) :
    Rel start slots { s with operands := v :: rest } (t.store (t.reg .sp) n) := by
  have hholds := h.holds
  have hsp := h.sp
  rw [hs] at hholds hsp
  have hstore := hholds.storeTop hv
  rw [← hsp, ← hn] at hstore
  refine ⟨hstore, ?_, h.slotBase, h.framePointer, h.result, h.right⟩
  rw [Frame.top_cons] at hsp ⊢
  exact hsp

theorem storeSlot (h : Rel start slots s t) (hk : k < s.slots.length) (hv : Word.InRange v)
    (hn : n = low v) :
    Rel start slots { s with slots := s.slots.set k (some v) }
      (t.store (t.reg .r19 + (k : Int) * 8) n) := by
  have hstore := h.holds.storeSlot (h.holds.length ▸ hk) hv
  refine ⟨?_, h.sp, h.slotBase, h.framePointer, h.result, h.right⟩
  rw [State.memory_store, hn, h.slotBase, Int.mul_comm]
  exact hstore

end Rel

section Answers

variable {lines : List (Line Instr)} {pos slots : Nat} {start t t' : State} {s s' : StackState}

/-- A number is set at once or by halves. -/
theorem run_moveBits (dst : Reg) (n : Nat) (is : List Instr) :
    runStraight Instr.exec (moveBits dst n ++ is) t = runStraight Instr.exec is (t.setLow dst n) := by
  unfold moveBits
  by_cases hn : n ≤ 0xFFFF
  · rw [if_pos hn]
    rfl
  · rw [if_neg hn]
    show runStraight Instr.exec is _ = _
    congr 1
    simp only [State.setLow, State.set_set, State.reg_set, if_true]
    congr 1
    unfold low
    omega

/-- The lines of an operation answer it. -/
def Answered (start : State) (slots : Nat) (step : Step) : Prop :=
  ∀ lines pos s t, Distinct lines → Placed lines pos (expand step) → Rel start slots s t →
    Answers Instr.exec lines (Rel start slots) (Stops start) (step.op.exec s) pos
      (expand step).length t

theorem answered_pushImm (n : Int) (scratch : List Label) :
    Answered start slots ⟨.pushImm n, scratch⟩ := by
  intro lines pos s t _ hplaced hR
  have hv := Word.wrap_inRange n
  have hn : low (bits n) = low (Word.wrap n) := by rw [low_wrap, natCast_bits, low_low]
  have hexpand : expand ⟨.pushImm n, scratch⟩ =
      (moveBits .r0 (bits n) ++ [Instr.push .r0]).map .instr := by
    rw [List.map_append]
    rfl
  rw [hexpand] at hplaced ⊢
  exact answers_straight _ (by simp) hplaced (run_moveBits .r0 (bits n) [.push .r0])
    ((hR.setResult hv hn).push hv hn)

theorem answered_pushResult (scratch : List Label) :
    Answered start slots ⟨.pushResult, scratch⟩ := by
  intro lines pos s t _ hplaced hR
  rcases pushResult_cases s with hexec | ⟨v, hresult, hexec⟩ <;> rw [hexec]
  · trivial
  · obtain ⟨hv, hr0⟩ := hR.result v hresult
    exact answers_straight [Instr.push .r0] (by simp) hplaced rfl (hR.push hv hr0)

theorem answered_popResult (scratch : List Label) :
    Answered start slots ⟨.popResult, scratch⟩ := by
  intro lines pos s t _ hplaced hR
  rcases popResult_cases s with hexec | ⟨v, rest, hs, hexec⟩ <;> rw [hexec]
  · trivial
  · obtain ⟨hv, hm⟩ := hR.head hs
    refine answers_straight [Instr.pop .r0] (by simp) hplaced ?_ ((hR.setResult hv rfl).pop hs)
    simp only [runStraight, Instr.exec, loading, hm]
    rfl

theorem answered_popOperands (scratch : List Label) :
    Answered start slots ⟨.popOperands, scratch⟩ := by
  intro lines pos s t _ hplaced hR
  rcases popOperands_cases s with hexec | ⟨b, a, rest, hs, hexec⟩ <;> rw [hexec]
  · trivial
  · obtain ⟨hb, hmb⟩ := hR.head hs
    have hR₁ := (hR.setRight hb rfl).pop hs
    obtain ⟨ha, hma⟩ := hR₁.head rfl
    have hR₂ := (hR₁.setResult ha rfl).pop rfl
    refine answers_straight [Instr.pop .r1, .pop .r0] (by simp) hplaced ?_ hR₂
    have hma : t.memory (t.reg .sp + 16) = some (low a) := hma
    simp only [runStraight, Instr.exec, loading, hmb, State.memory_set, State.reg_set, if_true, hma]
    rfl

theorem answered_storeTop (scratch : List Label) :
    Answered start slots ⟨.storeTop, scratch⟩ := by
  intro lines pos s t _ hplaced hR
  rcases storeTop_cases s with hexec | ⟨w, rest, v, hs, hresult, hexec⟩ <;> rw [hexec]
  · trivial
  · obtain ⟨hv, hr0⟩ := hR.result v hresult
    exact answers_straight [Instr.storeTop .r0] (by simp) hplaced rfl (hR.storeTop hs hv hr0)

theorem answered_loadZero (scratch : List Label) :
    Answered start slots ⟨.loadZero, scratch⟩ := by
  intro lines pos s t _ hplaced hR
  exact answers_straight [Instr.moveImmW .r0 0] (by simp) hplaced rfl
    (hR.setResult (v := 0) (by decide) rfl)

/-- The high half of a slot tells whether it is assigned. -/
theorem run_loadVar {k : Nat} {c : Option Int} (hR : Rel start slots s t)
    (hk : s.slots[k]? = some c) :
    runStraight Instr.exec [.load .r0 .r19 ((k : Int) * 8), .shiftRightX .r9 .r0 32] t =
      some ((t.set .r0 (cell c)).set .r9 (if c = none then 0xFFFFFFFF else 0)) := by
  have hload : (Instr.load .r0 .r19 ((k : Int) * 8)).exec t = .next (t.set .r0 (cell c)) := by
    show loading t (t.reg .r19 + (k : Int) * 8) _ = _
    simp only [loading, (hR.slot hk).2]
  have hshift : (Instr.shiftRightX .r9 .r0 32).exec (t.set .r0 (cell c)) =
      .next ((t.set .r0 (cell c)).set .r9 (cell c >>> (32 : Nat))) := if_pos (cell_bounds c)
  rw [runStraight_cons hload, runStraight_cons hshift, cell_shiftRight]
  rfl

theorem answered_loadVar (slot : Int) (scratch : List Label) :
    Answered start slots ⟨.loadVar slot, scratch⟩ := by
  intro lines pos s t _ hplaced hR
  rcases loadVar_cases s slot with hexec | ⟨k, rfl, ⟨v, hk, hexec⟩ | ⟨hk, hexec⟩⟩ <;> rw [hexec]
  · trivial
  · refine answers_straight ([Instr.load .r0 .r19 ((k : Int) * 8), .shiftRightX .r9 .r0 32] ++
      [.jumpIfNonzeroX .r9 (.trap "unbound")]) (by simp) hplaced ?_
      ((hR.setResult ((hR.slot hk).1 v rfl) rfl).free (.inr rfl) 0)
    rw [runStraight_append (run_loadVar hR hk)]
    rfl
  · exact answers_jump [Instr.load .r0 .r19 ((k : Int) * 8), .shiftRightX .r9 .r0 32] hplaced
      (run_loadVar hR hk) rfl ((hR.clobberResult _).free (.inr rfl) 0xFFFFFFFF)

theorem answered_storeVar (slot : Int) (scratch : List Label) :
    Answered start slots ⟨.storeVar slot, scratch⟩ := by
  intro lines pos s t _ hplaced hR
  rcases storeVar_cases s slot with hexec | ⟨k, v, rfl, hk, hresult, hexec⟩ <;> rw [hexec]
  · trivial
  · obtain ⟨hv, hr0⟩ := hR.result v hresult
    exact answers_straight [Instr.store .r0 .r19 ((k : Int) * 8)] (by simp) hplaced rfl
      (hR.storeSlot hk hv hr0)

theorem answered_negate (scratch : List Label) : Answered start slots ⟨.negate, scratch⟩ := by
  intro lines pos s t _ hplaced hR
  rcases negate_cases s with hexec | ⟨v, hresult, hexec⟩ <;> rw [hexec]
  · trivial
  · have hr0 := (hR.result v hresult).2
    have hneg : low (-t.reg .r0) = low (Word.wrap (-v)) := by rw [hr0, low_neg, low_wrap]
    exact answers_straight [Instr.negW .r0 .r0] (by simp) hplaced rfl
      (hR.setResult (Word.wrap_inRange _) hneg)

theorem answered_branch (target : Label) (scratch : List Label) :
    Answered start slots ⟨.branch target, scratch⟩ := by
  intro lines pos s t _ hplaced hR
  exact answers_jump [] hplaced rfl rfl hR

/-! ## Comparisons -/

/-- What the flags say after two values have been compared. -/
theorem flags_compare {a b : Int} (ha : Word.InRange a) (hb : Word.InRange b) :
    (t.compare (low a) (low b)).zero = decide (a = b) ∧
      ((t.compare (low a) (low b)).negative != (t.compare (low a) (low b)).overflow) =
        decide (a < b) := by
  unfold State.compare
  simp only [wrap_low_of_inRange ha, wrap_low_of_inRange hb]
  exact ⟨decide_eq_decide.2 (low_sub_eq_zero_iff ha hb), sign_bne_overflow ha hb⟩

theorem answered_branchIfNotPositive (target : Label) (scratch : List Label) :
    Answered start slots ⟨.branchIfNotPositive target, scratch⟩ := by
  intro lines pos s t _ hplaced hR
  rcases branchIfNotPositive_cases s target with hexec | ⟨v, hresult, hexec⟩ <;> rw [hexec]
  · trivial
  obtain ⟨hv, hr0⟩ := hR.result v hresult
  obtain ⟨hzero, hless⟩ := flags_compare (t := t) hv (b := 0) (by decide)
  have hjump : (Instr.jumpIf .le target).exec (t.compare (low v) (low 0)) =
      if 0 < v then .next (t.compare (low v) (low 0))
      else .jump target (t.compare (low v) (low 0)) := by
    show (if (_ || _) = true then _ else _) = _
    rw [hzero, hless]
    grind
  have hcompare : (Instr.compareImmW .r0 0).exec t = .next (t.compare (low v) (low 0)) := by
    show Effect.next (t.compare (t.reg .r0) 0) = _
    rw [hr0]
    rfl
  have hR' := hR.compare (low v) (low 0)
  by_cases hpos : 0 < v
  · rw [if_pos hpos] at hjump ⊢
    refine answers_straight [Instr.compareImmW .r0 0, .jumpIf .le target] (by simp) hplaced ?_ hR'
    rw [runStraight_cons hcompare, runStraight_cons hjump]
    rfl
  · rw [if_neg hpos] at hjump ⊢
    exact answers_jump [Instr.compareImmW .r0 0] hplaced (runStraight_cons hcompare) hjump hR'

/-- The condition of a comparison holds if the operator says so. -/
theorem holds_compare {op : BinaryOp} {cond : Cond} (h : cond? op = some cond) {a b : Int}
    (ha : Word.InRange a) (hb : Word.InRange b) :
    op.apply a b .none = .ok (if cond.holds (t.compare (low a) (low b)) then 1 else 0) := by
  obtain ⟨hzero, hless⟩ := flags_compare (t := t) ha hb
  have hnot : ((t.compare (low a) (low b)).negative == (t.compare (low a) (low b)).overflow) =
      !decide (a < b) := by
    rw [← hless, bne, Bool.not_not]
  cases op <;> cases h <;> simp only [BinaryOp.apply, Run.truth, Cond.holds, hzero, hless, hnot] <;> grind

/-! ## Operators -/

theorem answered_compare (op : BinaryOp) (scratch : List Label) :
    Answered start slots ⟨.compare op, scratch⟩ := by
  intro lines pos s t _ hplaced hR
  rcases compare_cases s op with hexec | ⟨hop, hexec⟩ <;> rw [hexec]
  · trivial
  refine answers_apply hR.result hR.right fun a b ha hb hr0 hr1 => ?_
  obtain ⟨cond, hcond⟩ : ∃ cond, cond? op = some cond := by
    cases op <;> first | exact ⟨_, rfl⟩ | cases hop
  rw [StackState.applied_of_ok (holds_compare (t := t) hcond ha hb)]
  have hexpand : expand ⟨.compare op, scratch⟩ =
      [Instr.compareW .r0 .r1, .setW .r0 cond].map .instr := by
    show Line.instr (Instr.compareW .r0 .r1) :: ((cond? op).toList.map _) = _
    rw [hcond]
    rfl
  have hcompare : (Instr.compareW .r0 .r1).exec t = .next (t.compare (low a) (low b)) := by
    rw [← hr0, ← hr1]
    rfl
  rw [hexpand] at hplaced ⊢
  refine answers_straight _ (by simp) hplaced ?_
    (((hR.compare (low a) (low b)).forgetRight).setResult ?_ rfl)
  · rw [runStraight_cons hcompare]
    rfl
  · split <;> decide

theorem answered_arith (op : BinaryOp) (scratch : List Label) :
    Answered start slots ⟨.arith op, scratch⟩ := by
  intro lines pos s t _ hplaced hR
  rcases arith_cases s op with hexec | ⟨hop, hexec⟩ <;> rw [hexec]
  · trivial
  refine answers_apply hR.result hR.right fun a b ha hb hr0 hr1 => ?_
  cases op with
  | add =>
    refine answers_straight [Instr.arithW .add .r0 .r0 .r1] (by simp) hplaced rfl
      (hR.forgetRight.setResult (Word.wrap_inRange _) ?_)
    rw [low_wrap, ← low_add, ← hr0, ← hr1]
    rfl
  | sub =>
    refine answers_straight [Instr.arithW .sub .r0 .r0 .r1] (by simp) hplaced rfl
      (hR.forgetRight.setResult (Word.wrap_inRange _) ?_)
    rw [low_wrap, ← low_sub, ← hr0, ← hr1]
    rfl
  | mul =>
    refine answers_straight [Instr.arithW .mul .r0 .r0 .r1] (by simp) hplaced rfl
      (hR.forgetRight.setResult (Word.wrap_inRange _) ?_)
    rw [low_wrap, ← low_mul, ← hr0, ← hr1]
    rfl
  | div =>
    have hjump : (Instr.jumpIfZeroW .r1 (.trap "div_zero")).exec t =
        if b = 0 then .jump (.trap "div_zero") t else .next t := by
      show (if low (t.reg .r1) = 0 then _ else _) = _
      simp only [hr1, low_low, low_eq_zero_iff hb]
    by_cases hb0 : b = 0
    · rw [if_pos hb0] at hjump
      rw [StackState.applied_div_zero hb0]
      exact answers_jump [] hplaced rfl hjump hR.forgetResult.forgetRight
    · rw [if_neg hb0] at hjump
      rw [StackState.applied_div hb0]
      have hrun : runStraight Instr.exec
          [.jumpIfZeroW .r1 (.trap "div_zero"), .arithW .sdiv .r0 .r0 .r1] t =
            some (t.setLow .r0 (Arith.sdiv.result (t.reg .r0) (t.reg .r1))) := by
        rw [runStraight_cons hjump]
        rfl
      refine answers_straight _ (by simp) hplaced hrun
        (hR.forgetRight.setResult (Word.wrap_inRange _) ?_)
      show low (if low (t.reg .r1) = 0 then 0
        else (Word.wrap (t.reg .r0)).tdiv (Word.wrap (t.reg .r1))) = _
      rw [hr1, low_low, if_neg (mt (low_eq_zero_iff hb).1 hb0), hr0, wrap_low_of_inRange ha,
        wrap_low_of_inRange hb, Word.quotient, low_wrap]
  | _ => cases hop

/-! ## Powers -/

/-- One turn multiplies once and counts down. -/
theorem run_turn {a : Int} {k i : Nat} (hk : k < 0x80000000) (hR : Rel start slots s t)
    (hright : s.right = none) (hr0 : t.reg .r0 = low a) (hr1 : t.reg .r1 = k + 1)
    (hr2 : t.reg .r2 = low (Word.power a i)) :
    ∃ t', runStraight Instr.exec [.arithW .mul .r2 .r2 .r0, .subsImmW .r1 .r1 1] t = some t' ∧
      Rel start slots s t' ∧ t'.reg .r0 = low a ∧ t'.reg .r1 = k ∧
      t'.reg .r2 = low (Word.power a (i + 1)) ∧ t'.zero = decide (k = 0) := by
  let t₁ := t.setLow .r2 (t.reg .r2 * t.reg .r0)
  have hR₁ : Rel start slots { s with right := none }
      ((t₁.compare (t₁.reg .r1) 1).setLow .r1 (t₁.reg .r1 - 1)) :=
    ((hR.free (.inl rfl) _).compare _ _).clobberRight _
  rw [← hright] at hR₁
  refine ⟨(t₁.compare (t₁.reg .r1) 1).setLow .r1 (t₁.reg .r1 - 1), rfl, hR₁, hr0, ?_, ?_, ?_⟩
  · show low (t.reg .r1 - 1) = k
    rw [hr1, low_of_lt (by omega) (by omega)]
    omega
  · show low (t.reg .r2 * t.reg .r0) = _
    rw [hr0, hr2, low_power_succ]
  · show decide (low (Word.wrap (t.reg .r1) - Word.wrap 1) = 0) = _
    rw [hr1, low_wrap_sub, low_of_lt (by omega) (by omega)]
    refine decide_eq_decide.2 ?_
    omega

/-- The loop of a power multiplies by the left operand as often as the right one says. -/
theorem reaches_power {loop done : Label} {a : Int} (hdistinct : Distinct lines)
    (hplaced : Placed lines pos (expandPow loop done)) (hright : s.right = none) (k i : Nat)
    (hk : k < 0x80000000) (hR : Rel start slots s t) (hr0 : t.reg .r0 = low a)
    (hr1 : t.reg .r1 = k + 1) (hr2 : t.reg .r2 = low (Word.power a i)) :
    ∃ t', Reaches (stepLine Instr.exec lines) ⟨pos + 4, t⟩ ⟨pos + 7, t'⟩ ∧
      Rel start slots s t' ∧ t'.reg .r2 = low (Word.power a (i + k + 1)) := by
  have hloop : lines[pos + 3]? = some (.label loop) := hplaced.getElem? rfl
  have hback : lines[pos + 6]? = some (.instr (.jumpIf .ne loop)) := hplaced.getElem? rfl
  have hbody : Placed lines (pos + 4)
      ([.arithW .mul .r2 .r2 .r0, .subsImmW .r1 .r1 1].map .instr) :=
    hplaced.tail.tail.tail.tail.left (b := [.instr (.jumpIf .ne loop), .label done,
      .instr (.moveW .r0 .r2)])
  induction k generalizing t i with
  | zero =>
    obtain ⟨t', hrun, hR', hr0', hr1', hr2', hzero⟩ := run_turn hk hR hright hr0 hr1 hr2
    have hexec : (Instr.jumpIf .ne loop).exec t' = .next t' := by
      show (if (!t'.zero) = true then _ else _) = _
      rw [hzero]
      rfl
    exact ⟨t', (reaches_straight hbody hrun).trans (Advances.of_step (step_next hback hexec)).reaches,
      hR', hr2'⟩
  | succ k ih =>
    obtain ⟨t', hrun, hR', hr0', hr1', hr2', hzero⟩ := run_turn hk hR hright hr0 hr1 hr2
    have hexec : (Instr.jumpIf .ne loop).exec t' = .jump loop t' := by
      show (if (!t'.zero) = true then _ else _) = _
      rw [hzero]
      rfl
    obtain ⟨t'', hreaches, hR'', hr2''⟩ := ih (i + 1) (by omega) hR' hr0' hr1' hr2'
    have hjump := step_jump hback hexec (resolve_of_distinct hdistinct hloop)
    have hpast : stepLine Instr.exec lines ⟨pos + 3, t'⟩ = .go ⟨pos + 4, t'⟩ := step_label hloop
    refine ⟨t'', (reaches_straight hbody hrun).trans <| (Advances.of_step hjump).reaches.trans <|
      (Advances.of_step hpast).reaches.trans hreaches, hR'', ?_⟩
    rw [hr2'']
    congr 2
    omega

/-- Behind the test of its sign, the code of a power leaves the product in `w2`. -/
theorem advances_product {loop done : Label} {a : Int} {n : Nat} (hdistinct : Distinct lines)
    (hplaced : Placed lines pos (expandPow loop done)) (hright : s.right = none)
    (hn : n < 0x80000000) (hR : Rel start slots s t) (hr0 : t.reg .r0 = low a)
    (hr1 : t.reg .r1 = n) :
    ∃ t', Advances (stepLine Instr.exec lines) ⟨pos + 1, t⟩ ⟨pos + 7, t'⟩ ∧
      Rel start slots s t' ∧ t'.reg .r2 = low (Word.power a n) := by
  have hinit : lines[pos + 1]? = some (.instr (.moveImmW .r2 1)) := hplaced.getElem? rfl
  have hskip : lines[pos + 2]? = some (.instr (.jumpIfZeroW .r1 done)) := hplaced.getElem? rfl
  have hloop : lines[pos + 3]? = some (.label loop) := hplaced.getElem? rfl
  have hdone : lines[pos + 7]? = some (.label done) := hplaced.getElem? rfl
  have hone : stepLine Instr.exec lines ⟨pos + 1, t⟩ = .go ⟨pos + 2, t.set .r2 1⟩ :=
    step_next hinit rfl
  have hR₁ : Rel start slots s (t.set .r2 1) := hR.free (.inl rfl) 1
  have hr2 : (t.set .r2 1).reg .r2 = low (Word.power a 0) := by
    rw [low_power_zero]
    rfl
  cases n with
  | zero =>
    have hexec : (Instr.jumpIfZeroW .r1 done).exec (t.set .r2 1) = .jump done (t.set .r2 1) :=
      if_pos (by rw [State.reg_set, if_neg nofun, hr1]; rfl)
    have hjump := step_jump hskip hexec (resolve_of_distinct hdistinct hdone)
    exact ⟨_, (Advances.of_step hone).trans (Advances.of_step hjump).reaches, hR₁, hr2⟩
  | succ k =>
    have hexec : (Instr.jumpIfZeroW .r1 done).exec (t.set .r2 1) = .next (t.set .r2 1) := by
      refine if_neg ?_
      rw [State.reg_set, if_neg nofun, hr1, low_of_lt (by omega) (by omega)]
      omega
    have hnext : stepLine Instr.exec lines ⟨pos + 2, t.set .r2 1⟩ = .go ⟨pos + 3, t.set .r2 1⟩ :=
      step_next hskip hexec
    have hpast : stepLine Instr.exec lines ⟨pos + 3, t.set .r2 1⟩ = .go ⟨pos + 4, t.set .r2 1⟩ :=
      step_label hloop
    obtain ⟨t', hreaches, hR', hr2'⟩ :=
      reaches_power hdistinct hplaced hright k 0 (by omega) hR₁ hr0 hr1 hr2
    rw [Nat.zero_add] at hr2'
    exact ⟨t', (Advances.of_step hone).trans <| (Advances.of_step hnext).reaches.trans <|
      (Advances.of_step hpast).reaches.trans hreaches, hR', hr2'⟩

theorem answered_pow (loop done : Label) : Answered start slots ⟨.pow, [loop, done]⟩ := by
  intro lines pos s t hdistinct hplaced hR
  have hplaced : Placed lines pos (expandPow loop done) := hplaced
  refine answers_apply hR.result hR.right fun a b ha hb hr0 hr1 => ?_
  have hfirst : (Instr.jumpIfBitW .r1 31 (.trap "neg_exp")).exec t =
      if b < 0 then .jump (.trap "neg_exp") t else .next t := by
    show (if (bits (t.reg .r1)).testBit 31 = true then _ else _) = _
    rw [hr1, bits_low, testBit_sign hb]
    simp only [decide_eq_true_eq]
  by_cases hneg : b < 0
  · rw [if_pos hneg] at hfirst
    rw [StackState.applied_pow_neg hneg]
    exact answers_jump [] hplaced rfl hfirst hR.forgetResult.forgetRight
  rw [if_neg hneg] at hfirst
  rw [StackState.applied_pow hneg]
  obtain ⟨n, rfl⟩ := Int.eq_ofNat_of_zero_le (Int.not_lt.1 hneg)
  have hn : n < 0x80000000 := Int.ofNat_lt.1 hb.2
  have hr1 : t.reg .r1 = n := by rw [hr1, low_of_lt (by omega) (by omega)]
  obtain ⟨t', hadvances, hR', hr2'⟩ :=
    advances_product hdistinct hplaced rfl hn hR.forgetRight hr0 hr1
  have hdone : lines[pos + 7]? = some (.label done) := hplaced.getElem? rfl
  have hlast : lines[pos + 8]? = some (.instr (.moveW .r0 .r2)) := hplaced.getElem? rfl
  have htest : stepLine Instr.exec lines ⟨pos, t⟩ = .go ⟨pos + 1, t⟩ :=
    step_next hplaced.head hfirst
  have hpast : stepLine Instr.exec lines ⟨pos + 7, t'⟩ = .go ⟨pos + 8, t'⟩ := step_label hdone
  have hmove : stepLine Instr.exec lines ⟨pos + 8, t'⟩ =
      .go ⟨pos + 9, t'.setLow .r0 (t'.reg .r2)⟩ := step_next hlast rfl
  refine ⟨_, (Advances.of_step htest).trans <| hadvances.reaches.trans <|
    (Advances.of_step hpast).reaches.trans (Advances.of_step hmove).reaches,
    hR'.setResult (Word.wrap_inRange _) ?_⟩
  rw [hr2', low_low]
  rfl

/-! ## Leaving -/

/-- The frame is left as it was found, with the result in `w0`. -/
theorem answered_epilogue (scratch : List Label) : Answered start slots ⟨.epilogue, scratch⟩ := by
  intro lines pos s t _ hplaced hR
  rcases epilogue_cases s with hexec | ⟨v, -, hresult, hexec⟩ <;> rw [hexec]
  · trivial
  obtain ⟨hv, hr0⟩ := hR.result v hresult
  have hkept : ∀ a, start.reg .sp - 32 ≤ a → t.memory a = savedMemory start a := hR.holds.kept
  have hfp := hR.framePointer
  have hload : (Instr.load .r19 .r29 (-16)).exec t = .next (t.set .r19 (start.reg .r19)) := by
    show loading t (t.reg .r29 + -16) _ = _
    rw [hfp, show start.reg .sp - 16 + -16 = start.reg .sp - 32 by omega]
    simp only [loading, hkept _ (Int.le_refl _), savedMemory_r19]
  let t₁ := (t.set .r19 (start.reg .r19)).set .sp (t.reg .r29)
  let t₂ := ((t₁.set .r29 (start.reg .r29)).set .r30 (start.reg .r30)).set .sp (start.reg .sp)
  have hpair : (Instr.popPair .r29 .r30).exec t₁ = .next t₂ := by
    show loading t₁ (t.reg .r29) (fun m => loading t₁ (t.reg .r29 + 8) fun n => _) = _
    have h29 : t₁.memory (start.reg .sp - 16) = some (start.reg .r29) :=
      (hkept _ (by omega)).trans (savedMemory_r29 start)
    have h30 : t₁.memory (start.reg .sp - 16 + 8) = some (start.reg .r30) :=
      (hkept _ (by omega)).trans (savedMemory_r30 start)
    rw [hfp]
    simp only [loading, h29, h30]
    have hsp : t₁.reg .sp = start.reg .sp - 16 := hfp
    rw [hsp, Int.sub_add_cancel]
  have hrun : runStraight Instr.exec
      [.load .r19 .r29 (-16), .moveX .sp .r29, .popPair .r29 .r30] t = some t₂ := by
    rw [runStraight_cons hload]
    exact runStraight_cons hpair
  have hstraight : Placed lines pos
      ([.load .r19 .r29 (-16), .moveX .sp .r29, .popPair .r29 .r30].map .instr) :=
    hplaced.left (b := [.instr .ret])
  have hret : lines[pos + 3]? = some (.instr .ret) := hplaced.getElem? rfl
  refine ⟨pos + 3, _, (reaches_straight hstraight hrun).ends (.of_step (step_stop hret rfl)),
    hv, hr0, ?_, ?_⟩
  · simp [t₂, t₁]
  · intro a ha
    exact (hkept a (by omega)).trans (savedMemory_above start ha)

/-- The lines of each step do what its operation does. -/
theorem answered {step : Step} (h : ∃ k, step = step.op.step .arm64 k) :
    Answered start slots step := by
  obtain ⟨k, hk⟩ := h
  obtain ⟨op, scratch⟩ := step
  cases op with
  | pushImm n => exact answered_pushImm n scratch
  | pushResult => exact answered_pushResult scratch
  | popResult => exact answered_popResult scratch
  | popOperands => exact answered_popOperands scratch
  | storeTop => exact answered_storeTop scratch
  | loadZero => exact answered_loadZero scratch
  | loadVar slot => exact answered_loadVar slot scratch
  | storeVar slot => exact answered_storeVar slot scratch
  | arith op => exact answered_arith op scratch
  | compare op => exact answered_compare op scratch
  | pow =>
    rw [hk]
    exact answered_pow _ _
  | negate => exact answered_negate scratch
  | branch target => exact answered_branch target scratch
  | branchIfNotPositive target => exact answered_branchIfNotPositive target scratch
  | epilogue => exact answered_epilogue scratch
  | prologue name slots => exact fun _ _ _ _ _ _ _ => trivial
  | label l =>
    intro lines pos s t _ hplaced hR
    exact ⟨t, Advances.of_step (step_label hplaced.head), hR⟩
  | trap code =>
    intro lines pos s t _ hplaced hR
    exact ⟨pos, .broken code, .of_step (step_stop hplaced.head rfl), rfl⟩
  | textSection =>
    intro lines pos s t _ hplaced hR
    exact ⟨t, (Advances.of_step (step_directive hplaced.head)).trans
      (Advances.of_step (step_directive hplaced.tail.head)).reaches, hR⟩
  | global name =>
    intro lines pos s t _ hplaced hR
    exact ⟨t, Advances.of_step (step_directive hplaced.head), hR⟩
  | comment text =>
    intro lines pos s t _ hplaced hR
    exact ⟨t, Advances.of_step (step_comment hplaced.head), hR⟩

end Answers

end Imp32.Assembly.Arm64
