import Imp32.Proofs.Backend.Expansion
import Imp32.Proofs.Backend.X86.Machine

/-!
# x86-64 code does what the stack machine does

`Rel` relates the stack machine to the registers and the frame of a function, and the lines of each
operation answer what the operation does (`answered`), whatever the operands are. In particular no
division faults: its divisor is neither zero nor -1.
-/

namespace Imp32.Assembly.X86

/-- The frame of a function that was entered with this stack pointer. Above it is the saved frame
pointer. -/
def frame (sp : Int) (slots : Nat) : Frame where
  base := sp - 8 - frameSize slots
  limit := sp - 8
  slots := slots
  slot k := sp - 8 + slotOffset k
  base_le := by
    unfold frameSize
    omega
  within k hk := by
    unfold frameSize slotOffset
    omega
  apart j hj k hk hjk := by
    unfold slotOffset
    omega

/-- Memory after the frame pointer of the caller has been saved. -/
def savedMemory (start : State) : Memory :=
  start.memory.store (start.reg .sp - 8) (start.reg .bp)

theorem savedMemory_bp (start : State) :
    savedMemory start (start.reg .sp - 8) = some (start.reg .bp) := Memory.store_self

theorem savedMemory_above (start : State) {a : Int} (ha : start.reg .sp ≤ a) :
    savedMemory start a = start.memory a := Memory.store_apart (.inr (by omega))

/-- The machine is where the stack machine is, in a function that was entered from `start`. -/
structure Rel (start : State) (slots : Nat) (s : StackState) (t : State) : Prop where
  holds : (frame (start.reg .sp) slots).Holds (savedMemory start) t.memory s.operands s.slots
  sp : t.reg .sp = (frame (start.reg .sp) slots).top s.operands
  framePointer : t.reg .bp = start.reg .sp - 8
  result : Carries s.result (t.reg .a)
  right : Carries s.right (t.reg .c)

/-- The registers of the caller and the memory from its stack pointer up, where the return address
is, are as they were. -/
structure Restored (start final : State) : Prop where
  sp : final.reg .sp = start.reg .sp
  bp : final.reg .bp = start.reg .bp
  memory : ∀ a, start.reg .sp ≤ a → final.memory a = start.memory a

/-- How the machine stops where the stack machine does: an abort is an undefined instruction at the
place of the trap. -/
def Stops (start : State) (pos : Nat) (o : StackStop) (line : Nat) (r : Stop) : Prop :=
  match o, r with
  | .returned v, .returned t => Word.InRange v ∧ t.reg .a = low v ∧ Restored start t
  | .aborted _, .aborted => line = pos
  | _, _ => False

/-! ## Keeping the relation -/

namespace Rel

variable {start t : State} {slots k : Nat} {s : StackState} {v n : Int} {rest : List Int}

theorem head (h : Rel start slots s t) (hs : s.operands = v :: rest) :
    Word.InRange v ∧ t.memory (t.reg .sp) = some (low v) := by
  have hholds := h.holds
  rw [hs] at hholds
  rw [h.sp, hs]
  exact hholds.head

theorem second {w : Int} (h : Rel start slots s t) (hs : s.operands = w :: v :: rest) :
    Word.InRange v ∧ t.memory (t.reg .sp + 16) = some (low v) := by
  have hholds := h.holds
  rw [hs] at hholds
  rw [h.sp, hs]
  exact hholds.second

theorem slot (h : Rel start slots s t) {c : Option Int} (hk : s.slots[k]? = some c) :
    (∀ v, c = some v → Word.InRange v) ∧ t.memory (t.reg .bp + slotOffset k) = some (cell c) := by
  rw [h.framePointer]
  exact h.holds.slots k c hk

/-- The flags are no part of the relation. -/
theorem congr (h : Rel start slots s t) (t' : State) (hreg : t'.reg = t.reg)
    (hmemory : t'.memory = t.memory) : Rel start slots s t' := by
  obtain ⟨hholds, hsp, hfp, hresult, hright⟩ := h
  rw [← hmemory] at hholds
  rw [← hreg] at hsp hfp hresult hright
  exact ⟨hholds, hsp, hfp, hresult, hright⟩

/-- The third register is free. -/
theorem free (h : Rel start slots s t) (n : Int) : Rel start slots s (t.set .d n) :=
  ⟨h.holds, h.sp, h.framePointer, h.result, h.right⟩

theorem setResult (h : Rel start slots s t) (hv : Word.InRange v) (hn : n = low v) :
    Rel start slots { s with result := some v } (t.set .a n) := by
  refine ⟨h.holds, h.sp, h.framePointer, fun w hw => ?_, h.right⟩
  cases hw
  exact ⟨hv, hn⟩

theorem setRight (h : Rel start slots s t) (hv : Word.InRange v) (hn : n = low v) :
    Rel start slots { s with right := some v } (t.set .c n) := by
  refine ⟨h.holds, h.sp, h.framePointer, h.result, fun w hw => ?_⟩
  cases hw
  exact ⟨hv, hn⟩

theorem clobberResult (h : Rel start slots s t) (n : Int) :
    Rel start slots { s with result := none } (t.set .a n) :=
  ⟨h.holds, h.sp, h.framePointer, nofun, h.right⟩

theorem clobberRight (h : Rel start slots s t) (n : Int) :
    Rel start slots { s with right := none } (t.set .c n) :=
  ⟨h.holds, h.sp, h.framePointer, h.result, nofun⟩

theorem forgetResult (h : Rel start slots s t) : Rel start slots { s with result := none } t :=
  ⟨h.holds, h.sp, h.framePointer, nofun, h.right⟩

theorem forgetRight (h : Rel start slots s t) : Rel start slots { s with right := none } t :=
  ⟨h.holds, h.sp, h.framePointer, h.result, nofun⟩

theorem push (h : Rel start slots s t) (hv : Word.InRange v) (hn : n = low v) :
    Rel start slots { s with operands := v :: s.operands }
      ((t.set .sp (t.reg .sp - 16)).store (t.reg .sp - 16) n) := by
  have hpush := h.holds.push hv
  rw [Frame.top_cons, ← h.sp, ← hn] at hpush
  refine ⟨hpush, ?_, h.framePointer, h.result, h.right⟩
  rw [Frame.top_cons, ← h.sp]
  rfl

theorem pop (h : Rel start slots s t) (hs : s.operands = v :: rest) :
    Rel start slots { s with operands := rest } (t.set .sp (t.reg .sp + 16)) := by
  have hholds := h.holds
  rw [hs] at hholds
  refine ⟨hholds.pop, ?_, h.framePointer, h.result, h.right⟩
  have hsp := h.sp
  rw [hs, Frame.top_cons] at hsp
  show t.reg .sp + 16 = (frame (start.reg .sp) slots).top rest
  omega

theorem popTwo {w : Int} (h : Rel start slots s t) (hs : s.operands = w :: v :: rest) :
    Rel start slots { s with operands := rest } (t.set .sp (t.reg .sp + 32)) := by
  have hpop := (h.pop hs).pop rfl
  refine ⟨hpop.holds, ?_, h.framePointer, h.result, h.right⟩
  have hsp : t.reg .sp + 16 + 16 = (frame (start.reg .sp) slots).top rest := hpop.sp
  show t.reg .sp + 32 = (frame (start.reg .sp) slots).top rest
  omega

theorem storeTop (h : Rel start slots s t) {w : Int} (hs : s.operands = w :: rest)
    (hv : Word.InRange v) (hn : n = low v) :
    Rel start slots { s with operands := v :: rest } (t.store (t.reg .sp) n) := by
  have hholds := h.holds
  have hsp := h.sp
  rw [hs] at hholds hsp
  have hstore := hholds.storeTop hv
  rw [← hsp, ← hn] at hstore
  refine ⟨hstore, ?_, h.framePointer, h.result, h.right⟩
  rw [Frame.top_cons] at hsp ⊢
  exact hsp

theorem storeSlot (h : Rel start slots s t) (hk : k < s.slots.length) (hv : Word.InRange v)
    (hn : n = low v) :
    Rel start slots { s with slots := s.slots.set k (some v) }
      (t.store (t.reg .bp + slotOffset k) n) := by
  have hstore := h.holds.storeSlot (h.holds.length ▸ hk) hv
  refine ⟨?_, h.sp, h.framePointer, h.result, h.right⟩
  rw [State.memory_store, hn, h.framePointer]
  exact hstore

end Rel

/-- The lines of an operation answer it. -/
def Answered (start : State) (slots : Nat) (step : Step) : Prop :=
  ∀ lines pos s t, Distinct lines → Placed lines pos (expand step) → Rel start slots s t →
    Answers Instr.exec lines (Rel start slots) (Stops start) (step.op.exec s) pos
      (expand step).length t

section Answers

variable {lines : List (Line Instr)} {pos slots : Nat} {start t : State} {s : StackState}

/-! ## The stack -/

theorem run_pushResult (t : State) : runStraight Instr.exec pushResult t =
    some ((t.unflag.set .sp (t.reg .sp - 16)).store (t.reg .sp - 16) (t.reg .a)) := by
  show some ((t.unflag.set .sp (t.reg .sp - 16)).store (t.reg .sp - 16 + 0) (t.reg .a)) = _
  rw [Int.add_zero]

theorem answered_pushImm (n : Int) (scratch : List Label) :
    Answered start slots ⟨.pushImm n, scratch⟩ := by
  intro lines pos s t _ hplaced hR
  have hn : low (bits n) = low (Word.wrap n) := by rw [low_wrap, natCast_bits, low_low]
  have hR₁ := (hR.setResult (Word.wrap_inRange n) hn).congr
    (t.setLow .a (bits n)).unflag rfl rfl
  exact answers_straight (Instr.moveImmL (bits n) .a :: pushResult) (by simp) hplaced
    ((runStraight_cons rfl).trans (run_pushResult _)) (hR₁.push (Word.wrap_inRange n) hn)

theorem answered_pushResult (scratch : List Label) :
    Answered start slots ⟨.pushResult, scratch⟩ := by
  intro lines pos s t _ hplaced hR
  rcases pushResult_cases s with hexec | ⟨v, hresult, hexec⟩ <;> rw [hexec]
  · trivial
  · obtain ⟨hv, ha⟩ := hR.result v hresult
    exact answers_straight pushResult (by simp [pushResult]) hplaced (run_pushResult t)
      ((hR.congr t.unflag rfl rfl).push hv ha)

theorem answered_popResult (scratch : List Label) :
    Answered start slots ⟨.popResult, scratch⟩ := by
  intro lines pos s t _ hplaced hR
  rcases popResult_cases s with hexec | ⟨v, rest, hs, hexec⟩ <;> rw [hexec]
  · trivial
  · obtain ⟨hv, hm⟩ := hR.head hs
    have hR₁ := (hR.setResult hv rfl).congr (t.set .a (low v)).unflag rfl rfl
    refine answers_straight [Instr.load 0 .sp .a, .addImmQ 16 .sp] (by simp) hplaced ?_ (hR₁.pop hs)
    simp only [runStraight, Instr.exec, needing, Int.add_zero, hm]
    rfl

theorem answered_popOperands (scratch : List Label) :
    Answered start slots ⟨.popOperands, scratch⟩ := by
  intro lines pos s t _ hplaced hR
  rcases popOperands_cases s with hexec | ⟨b, a, rest, hs, hexec⟩ <;> rw [hexec]
  · trivial
  · obtain ⟨hb, hmb⟩ := hR.head hs
    obtain ⟨ha, hma⟩ := hR.second hs
    have hR₁ := ((hR.setRight hb rfl).setResult ha rfl).congr
      ((t.set .c (low b)).set .a (low a)).unflag rfl rfl
    refine answers_straight [Instr.load 0 .sp .c, .load 16 .sp .a, .addImmQ 32 .sp] (by simp) hplaced
      ?_ (hR₁.popTwo hs)
    have hmb : t.memory (t.reg .sp + 0) = some (low b) := by rwa [Int.add_zero]
    have hload : (Instr.load 0 .sp .c).exec t = .next (t.set .c (low b)) := by
      show needing (t.memory (t.reg .sp + 0)) _ = _
      rw [hmb]
      rfl
    have hload' : (Instr.load 16 .sp .a).exec (t.set .c (low b)) =
        .next ((t.set .c (low b)).set .a (low a)) := by
      show needing (t.memory (t.reg .sp + 16)) _ = _
      rw [hma]
      rfl
    rw [runStraight_cons hload, runStraight_cons hload']
    rfl

theorem answered_storeTop (scratch : List Label) :
    Answered start slots ⟨.storeTop, scratch⟩ := by
  intro lines pos s t _ hplaced hR
  rcases storeTop_cases s with hexec | ⟨w, rest, v, hs, hresult, hexec⟩ <;> rw [hexec]
  · trivial
  · obtain ⟨hv, ha⟩ := hR.result v hresult
    refine answers_straight [Instr.store .a 0 .sp] (by simp) hplaced ?_ (hR.storeTop hs hv ha)
    show some (t.store (t.reg .sp + 0) (t.reg .a)) = _
    rw [Int.add_zero]

theorem answered_loadZero (scratch : List Label) :
    Answered start slots ⟨.loadZero, scratch⟩ := by
  intro lines pos s t _ hplaced hR
  exact answers_straight [Instr.moveImmL 0 .a] (by simp) hplaced rfl
    (hR.setResult (v := 0) (by decide) rfl)

/-! ## Slots -/

/-- The high half of a slot tells whether it is assigned. -/
theorem run_loadVar {k : Nat} {c : Option Int} (hR : Rel start slots s t)
    (hk : s.slots[k]? = some c) :
    runStraight Instr.exec [.load (slotOffset k) .bp .a, .moveQ .a .d, .shiftRightQ 32 .d] t =
      some ((((t.set .a (cell c)).set .d (cell c)).set .d (if c = none then 0xFFFFFFFF else 0)).flagShifted
        (if c = none then 0xFFFFFFFF else 0)) := by
  have hload : (Instr.load (slotOffset k) .bp .a).exec t = .next (t.set .a (cell c)) := by
    show needing (t.memory (t.reg .bp + slotOffset k)) _ = _
    rw [(hR.slot hk).2]
    rfl
  have hmove : (Instr.moveQ .a .d).exec (t.set .a (cell c)) =
      .next ((t.set .a (cell c)).set .d (cell c)) := rfl
  have hshift : (Instr.shiftRightQ 32 .d).exec ((t.set .a (cell c)).set .d (cell c)) =
      .next ((((t.set .a (cell c)).set .d (cell c)).set .d (cell c >>> (32 : Nat))).flagShifted
        (cell c >>> (32 : Nat))) := if_pos (cell_bounds c)
  rw [runStraight_cons hload, runStraight_cons hmove, runStraight_cons hshift, cell_shiftRight]
  rfl

theorem answered_loadVar (slot : Int) (scratch : List Label) :
    Answered start slots ⟨.loadVar slot, scratch⟩ := by
  intro lines pos s t _ hplaced hR
  rcases loadVar_cases s slot with hexec | ⟨k, rfl, ⟨v, hk, hexec⟩ | ⟨hk, hexec⟩⟩ <;> rw [hexec]
  · trivial
  · have hR' := (((hR.setResult ((hR.slot hk).1 v rfl) rfl).free (low v)).free 0).congr
      ((((t.set .a (low v)).set .d (low v)).set .d 0).flagShifted 0) rfl rfl
    refine answers_straight ([Instr.load (slotOffset k) .bp .a, .moveQ .a .d,
      .shiftRightQ 32 .d] ++ [.jumpIf .nz (.trap "unbound")]) (by simp) hplaced ?_ hR'
    rw [runStraight_append (run_loadVar hR hk)]
    rfl
  · have hR' := (((hR.clobberResult (cell none)).free (cell none)).free 0xFFFFFFFF).congr
      ((((t.set .a (cell none)).set .d (cell none)).set .d 0xFFFFFFFF).flagShifted 0xFFFFFFFF) rfl rfl
    exact answers_jump [Instr.load (slotOffset k) .bp .a, .moveQ .a .d, .shiftRightQ 32 .d]
      hplaced (run_loadVar hR hk) rfl hR'

theorem answered_storeVar (slot : Int) (scratch : List Label) :
    Answered start slots ⟨.storeVar slot, scratch⟩ := by
  intro lines pos s t _ hplaced hR
  rcases storeVar_cases s slot with hexec | ⟨k, v, rfl, hk, hresult, hexec⟩ <;> rw [hexec]
  · trivial
  · obtain ⟨hv, ha⟩ := hR.result v hresult
    exact answers_straight [Instr.store .a (slotOffset k) .bp] (by simp) hplaced rfl
      (hR.storeSlot hk hv ha)

/-! ## Arithmetic and branches -/

theorem answered_negate (scratch : List Label) : Answered start slots ⟨.negate, scratch⟩ := by
  intro lines pos s t _ hplaced hR
  rcases negate_cases s with hexec | ⟨v, hresult, hexec⟩ <;> rw [hexec]
  · trivial
  · have hneg : low (-t.reg .a) = low (Word.wrap (-v)) := by
      rw [(hR.result v hresult).2, low_neg, low_wrap]
    exact answers_straight [Instr.negL .a] (by simp) hplaced rfl
      ((hR.congr (t.flag _) rfl rfl).setResult (Word.wrap_inRange _) hneg)

theorem answered_branch (target : Label) (scratch : List Label) :
    Answered start slots ⟨.branch target, scratch⟩ := by
  intro lines pos s t _ hplaced hR
  exact answers_jump [] hplaced rfl rfl hR

/-- The conditions after two values have been compared. -/
theorem flags_compare {a b : Int} (ha : Word.InRange a) (hb : Word.InRange b) :
    (t.flag (Word.wrap (low a) - Word.wrap (low b))).zero = some (decide (a = b)) ∧
      ∃ sign overflow, (t.flag (Word.wrap (low a) - Word.wrap (low b))).sign = some sign ∧
        (t.flag (Word.wrap (low a) - Word.wrap (low b))).overflow = some overflow ∧
        (sign != overflow) = decide (a < b) := by
  rw [wrap_low_of_inRange ha, wrap_low_of_inRange hb]
  exact ⟨congrArg some (decide_eq_decide.2 (low_sub_eq_zero_iff ha hb)), _, _, rfl, rfl,
    sign_bne_overflow ha hb⟩

/-- The flags of a test are those of a comparison with zero. -/
theorem exec_testL (r : Reg) {v : Int} (hv : Word.InRange v) (hr : t.reg r = low v) :
    (Instr.testL r r).exec t = .next (t.flag v) := by
  show Effect.next (t.flag (Word.wrap (bits (t.reg r) &&& bits (t.reg r) : Nat))) = _
  rw [Nat.and_self, natCast_bits, hr, low_low, wrap_low_of_inRange hv]

theorem answered_branchIfNotPositive (target : Label) (scratch : List Label) :
    Answered start slots ⟨.branchIfNotPositive target, scratch⟩ := by
  intro lines pos s t _ hplaced hR
  rcases branchIfNotPositive_cases s target with hexec | ⟨v, hresult, hexec⟩ <;> rw [hexec]
  · trivial
  obtain ⟨hv, ha⟩ := hR.result v hresult
  have htest := exec_testL .a hv ha
  have hjump : (Instr.jumpIf .le target).exec (t.flag v) =
      if 0 < v then .next (t.flag v) else .jump target (t.flag v) := by
    have hflag : t.flag (Word.wrap (low v) - Word.wrap (low 0)) = t.flag v := by
      rw [wrap_low_of_inRange hv, wrap_low_of_inRange (by decide), Int.sub_zero]
    obtain ⟨hzero, sign, overflow, hsign, hoverflow, hless⟩ :=
      flags_compare (t := t) hv (b := 0) (by decide)
    rw [hflag] at hzero hsign hoverflow
    simp only [Instr.exec, JumpCond.holds?, hzero, hsign, hoverflow]
    show (if (decide (v = 0) || sign != overflow) = true then _ else _) = _
    rw [hless]
    grind
  have hR' := hR.congr (t.flag v) rfl rfl
  by_cases hpos : 0 < v
  · rw [if_pos hpos] at hjump ⊢
    refine answers_straight [Instr.testL .a .a, .jumpIf .le target] (by simp) hplaced ?_ hR'
    rw [runStraight_cons htest, runStraight_cons hjump]
    rfl
  · rw [if_neg hpos] at hjump ⊢
    exact answers_jump [Instr.testL .a .a] hplaced (runStraight_cons htest) hjump hR'

/-- A comparison sets the result to what the operator says. -/
theorem holds_compare {op : BinaryOp} {cond : Cond} (h : cond? op = some cond) {a b : Int}
    (ha : Word.InRange a) (hb : Word.InRange b) : ∃ holds,
      cond.holds? (t.flag (Word.wrap (low a) - Word.wrap (low b))) = some holds ∧
        op.apply a b .none = .ok (if holds then 1 else 0) := by
  obtain ⟨hzero, sign, overflow, hsign, hoverflow, hless⟩ := flags_compare (t := t) ha hb
  have hnot : (sign == overflow) = !decide (a < b) := by
    rw [← hless, bne, Bool.not_not]
  cases op <;> cases h <;>
    refine ⟨_, by simp only [Cond.holds?, hzero, hsign, hoverflow]; rfl, ?_⟩ <;>
    simp only [BinaryOp.apply, Run.truth, hless, hnot] <;> grind

theorem answered_compare (op : BinaryOp) (scratch : List Label) :
    Answered start slots ⟨.compare op, scratch⟩ := by
  intro lines pos s t _ hplaced hR
  rcases compare_cases s op with hexec | ⟨hop, hexec⟩ <;> rw [hexec]
  · trivial
  refine answers_apply hR.result hR.right fun a b ha hb hra hrc => ?_
  obtain ⟨cond, hcond⟩ : ∃ cond, cond? op = some cond := by
    cases op <;> first | exact ⟨_, rfl⟩ | cases hop
  obtain ⟨holds, hholds, happly⟩ := holds_compare (t := t) hcond ha hb
  rw [StackState.applied_of_ok happly]
  have hexpand : expand ⟨.compare op, scratch⟩ =
      [Instr.compareL .c .a, .setByte cond, .widenByte].map .instr := by
    show Line.instr (Instr.compareL .c .a) :: ((cond? op).toList.flatMap _) = _
    rw [hcond]
    rfl
  let flagged := t.flag (Word.wrap (low a) - Word.wrap (low b))
  have hcompare : (Instr.compareL .c .a).exec t = .next flagged := by
    show Effect.next (t.flag (Word.wrap (t.reg .a) - Word.wrap (t.reg .c))) = _
    rw [hra, hrc]
  have hset : (Instr.setByte cond).exec flagged = .next (flagged.set .a
      (t.reg .a - t.reg .a % 0x100 + if holds then 1 else 0)) := by
    show needing (cond.holds? flagged) _ = _
    rw [hholds]
    rfl
  have hwiden : low ((t.reg .a - t.reg .a % 0x100 + if holds then 1 else 0) % 0x100) =
      low (if holds then 1 else 0) := by
    congr 1
    split <;> omega
  have hvalue : Word.InRange (if holds then 1 else 0) := by
    split <;> decide
  have hR' := ((hR.congr flagged rfl rfl).forgetRight.clobberResult
    (t.reg .a - t.reg .a % 0x100 + if holds then 1 else 0)).setResult hvalue hwiden
  rw [hexpand] at hplaced ⊢
  refine answers_straight _ (by simp) hplaced ?_ hR'
  rw [runStraight_cons hcompare, runStraight_cons hset]
  rfl

/-! ## Division -/

/-- A quotient overflows for the least value and -1 only. -/
theorem quotient_inRange {a b : Int} (ha : Word.InRange a) (hzero : b ≠ 0) (hminus : b ≠ -1) :
    Word.InRange (a.tdiv b) := by
  unfold Word.InRange at ha ⊢
  by_cases hone : b = 1
  · rw [hone, Int.tdiv_one]
    exact ha
  · have habs : (a.tdiv b).natAbs = a.natAbs / b.natAbs := Int.natAbs_tdiv a b
    have hhalf : a.natAbs / b.natAbs ≤ a.natAbs / 2 := Nat.div_le_div_left (by omega) (by decide)
    omega

/-- The dividend is the left operand with its sign extended. -/
theorem divide_extended {a b : Int} (ha : Word.InRange a) (hzero : b ≠ 0) (hminus : b ≠ -1)
    (hra : t.reg .a = low a)
    (hrd : t.reg .d = low (if a < 0 then -1 else 0)) :
    t.divide b = .next ((t.unflag.setLow .a (a.tdiv b)).setLow .d (a.tmod b)) := by
  have hdividend : Word.wrap (t.reg .d) * 0x100000000 + low (t.reg .a) = a := by
    rw [hrd, hra, low_low]
    unfold Word.InRange at ha
    by_cases hneg : a < 0
    · rw [if_pos hneg, wrap_low_of_inRange (by decide)]
      unfold low
      omega
    · rw [if_neg hneg, wrap_low_of_inRange (by decide)]
      unfold low
      omega
  unfold State.divide
  rw [hdividend, if_neg]
  rintro (hb0 | hrange)
  · exact hzero hb0
  · exact hrange (quotient_inRange ha hzero hminus)

theorem answered_arith (op : BinaryOp) (scratch : List Label) (hdiv : op ≠ .div) :
    Answered start slots ⟨.arith op, scratch⟩ := by
  intro lines pos s t _ hplaced hR
  rcases arith_cases s op with hexec | ⟨hop, hexec⟩ <;> rw [hexec]
  · trivial
  refine answers_apply hR.result hR.right fun a b ha hb hra hrc => ?_
  cases op with
  | add =>
    refine answers_straight [Instr.arithL .add .c .a] (by simp) hplaced rfl
      ((hR.congr (t.flag _) rfl rfl).forgetRight.setResult (Word.wrap_inRange _) ?_)
    rw [hra, hrc, low_add, low_wrap]
  | sub =>
    refine answers_straight [Instr.arithL .sub .c .a] (by simp) hplaced rfl
      ((hR.congr (t.flag _) rfl rfl).forgetRight.setResult (Word.wrap_inRange _) ?_)
    rw [hra, hrc, low_sub, low_wrap]
  | mul =>
    refine answers_straight [Instr.arithL .imul .c .a] (by simp) hplaced rfl
      ((hR.congr t.unflag rfl rfl).forgetRight.setResult (Word.wrap_inRange _) ?_)
    rw [hra, hrc, low_mul, low_wrap]
  | div => exact absurd rfl hdiv
  | _ => cases hop

/-- The code of a division tests its divisor for zero, and then for -1. -/
theorem exec_tests {b : Int} (hb : Word.InRange b) (hrc : t.reg .c = low b) (target : Label) :
    (Instr.testL .c .c).exec t = .next (t.flag b) ∧
      (Instr.jumpIf .z target).exec (t.flag b) =
        (if b = 0 then .jump target (t.flag b) else .next (t.flag b)) ∧
      (Instr.compareImmL (-1) .c).exec (t.flag b) = .next ((t.flag b).flag (b - -1)) ∧
      (Instr.jumpIf .e target).exec ((t.flag b).flag (b - -1)) =
        if b = -1 then .jump target ((t.flag b).flag (b - -1))
        else .next ((t.flag b).flag (b - -1)) := by
  refine ⟨exec_testL .c hb hrc, ?_, ?_, ?_⟩
  · show (if decide (low b = 0) = true then _ else _) = _
    simp only [low_eq_zero_iff hb, decide_eq_true_eq]
  · show Effect.next ((t.flag b).flag (Word.wrap (t.reg .c) - Word.wrap (-1))) = _
    rw [hrc, wrap_low_of_inRange hb, Word.wrap_of_inRange (n := -1) (by decide)]
  · show (if decide (low (b - -1) = 0) = true then _ else _) = _
    simp only [low_sub_eq_zero_iff hb (by decide : Word.InRange (-1)), decide_eq_true_eq]

theorem answered_div (byMinusOne done : Label) :
    Answered start slots ⟨.arith .div, [byMinusOne, done]⟩ := by
  intro lines pos s t hdistinct hplaced hR
  have hplaced : Placed lines pos (expandDiv byMinusOne done) := hplaced
  refine answers_apply hR.result hR.right fun a b ha hb hra hrc => ?_
  obtain ⟨htest, hzero, -, -⟩ := exec_tests hb hrc (.trap "div_zero")
  obtain ⟨-, -, hcompare, hequal⟩ := exec_tests hb hrc byMinusOne
  let tested := (t.flag b).flag (b - -1)
  have hR' : Rel start slots { s with right := none } tested :=
    (hR.congr tested rfl rfl).forgetRight
  by_cases hb0 : b = 0
  · rw [if_pos hb0] at hzero
    rw [StackState.applied_div_zero hb0]
    exact answers_jump [Instr.testL .c .c] hplaced (runStraight_cons htest) hzero
      (hR.congr (t.flag b) rfl rfl).forgetResult.forgetRight
  rw [if_neg hb0] at hzero
  rw [StackState.applied_div hb0]
  have hminus : lines[pos + 7]? = some (.label byMinusOne) := hplaced.getElem? rfl
  have hdone : lines[pos + 9]? = some (.label done) := hplaced.getElem? rfl
  have hend : ∀ t' : State, Reaches (stepLine Instr.exec lines) ⟨pos + 9, t'⟩ ⟨pos + 10, t'⟩ :=
    fun t' => (Advances.of_step (step_label hdone)).reaches
  have hrun : runStraight Instr.exec
      [.testL .c .c, .jumpIf .z (.trap "div_zero"), .compareImmL (-1) .c] t = some tested := by
    rw [runStraight_cons htest, runStraight_cons hzero]
    exact runStraight_cons hcompare
  have hfirst : Placed lines pos
      ([.testL .c .c, .jumpIf .z (.trap "div_zero"), .compareImmL (-1) .c].map .instr) :=
    hplaced.left (b := [.instr (.jumpIf .e byMinusOne), .instr .extendSign, .instr (.divideL .c),
      .instr (.jump done), .label byMinusOne, .instr (.negL .a), .label done])
  have hje : lines[pos + 3]? = some (.instr (.jumpIf .e byMinusOne)) := hplaced.getElem? rfl
  have htested := advances_straight hfirst hrun
  by_cases hb1 : b = -1
  · rw [if_pos hb1] at hequal
    have hneg : lines[pos + 8]? = some (.instr (.negL .a)) := hplaced.getElem? rfl
    have hjump := step_jump hje hequal (resolve_of_distinct hdistinct hminus)
    have hlabel : stepLine Instr.exec lines ⟨pos + 7, tested⟩ = .go ⟨pos + 8, tested⟩ :=
      step_label hminus
    let negated := (tested.flag (-Word.wrap (t.reg .a))).setLow .a (-t.reg .a)
    have hnegate : stepLine Instr.exec lines ⟨pos + 8, tested⟩ = .go ⟨pos + 9, negated⟩ :=
      step_next hneg rfl
    refine ⟨negated, htested.trans <| (Advances.of_step hjump).reaches.trans <|
      (Advances.of_step hlabel).reaches.trans <| (Advances.of_step hnegate).reaches.trans <|
      hend negated, ?_⟩
    have hflagged : Rel start slots { s with right := none } (tested.flag (-Word.wrap (t.reg .a))) :=
      hR'.congr _ rfl rfl
    refine hflagged.setResult (v := Word.quotient a b) (Word.wrap_inRange _) ?_
    rw [hra, hb1, low_neg, Word.quotient, low_wrap, Int.tdiv_neg, Int.tdiv_one]
  · rw [if_neg hb1] at hequal
    have hextend : lines[pos + 4]? = some (.instr .extendSign) := hplaced.getElem? rfl
    have hdivide : lines[pos + 5]? = some (.instr (.divideL .c)) := hplaced.getElem? rfl
    have hleave : lines[pos + 6]? = some (.instr (.jump done)) := hplaced.getElem? rfl
    let extended := tested.setLow .d (if a < 0 then -1 else 0)
    have hskip : stepLine Instr.exec lines ⟨pos + 3, tested⟩ = .go ⟨pos + 4, tested⟩ :=
      step_next hje hequal
    have hsign : stepLine Instr.exec lines ⟨pos + 4, tested⟩ = .go ⟨pos + 5, extended⟩ := by
      refine step_next hextend ?_
      show Effect.next (tested.setLow .d (if Word.wrap (t.reg .a) < 0 then -1 else 0)) = _
      rw [hra, wrap_low_of_inRange ha]
    let divided := (extended.unflag.setLow .a (a.tdiv b)).setLow .d (a.tmod b)
    have hquotient : stepLine Instr.exec lines ⟨pos + 5, extended⟩ = .go ⟨pos + 6, divided⟩ := by
      refine step_next hdivide ?_
      show extended.divide (Word.wrap (t.reg .c)) = _
      rw [hrc, wrap_low_of_inRange hb]
      exact divide_extended ha hb0 hb1 hra rfl
    have hjump : stepLine Instr.exec lines ⟨pos + 6, divided⟩ = .go ⟨pos + 9, divided⟩ :=
      step_jump hleave rfl (resolve_of_distinct hdistinct hdone)
    refine ⟨divided, htested.trans <| (Advances.of_step hskip).reaches.trans <|
      (Advances.of_step hsign).reaches.trans <| (Advances.of_step hquotient).reaches.trans <|
      (Advances.of_step hjump).reaches.trans (hend divided), ?_⟩
    have hR₁ := (hR'.free (low (if a < 0 then -1 else 0))).congr extended.unflag rfl rfl
    refine (hR₁.setResult (Word.wrap_inRange _) ?_).free _
    exact (low_wrap _).symm

/-! ## Powers -/

/-- One turn multiplies once and counts down. -/
theorem run_turn {a : Int} {k i : Nat} (hk : k < 0x80000000) (hR : Rel start slots s t)
    (hright : s.right = none) (hra : t.reg .a = low a) (hrc : t.reg .c = k + 1)
    (hrd : t.reg .d = low (Word.power a i)) :
    ∃ t', runStraight Instr.exec [.arithL .imul .a .d, .subImmL 1 .c] t = some t' ∧
      Rel start slots s t' ∧ t'.reg .a = low a ∧ t'.reg .c = k ∧
      t'.reg .d = low (Word.power a (i + 1)) ∧ t'.zero = some (decide (k = 0)) := by
  let t₁ := t.unflag.setLow .d (t.reg .d * t.reg .a)
  let t₂ := t₁.flag (Word.wrap (t.reg .c) - Word.wrap 1)
  have hR₁ : Rel start slots s t₁ := (hR.free _).congr _ rfl rfl
  have hR₂ : Rel start slots s t₂ := hR₁.congr _ rfl rfl
  have hR₃ := hR₂.clobberRight (low (t.reg .c - 1))
  rw [← hright] at hR₃
  refine ⟨t₂.setLow .c (t.reg .c - 1), rfl, hR₃, hra, ?_, ?_, ?_⟩
  · show low (t.reg .c - 1) = k
    rw [hrc, low_of_lt (by omega) (by omega)]
    omega
  · show low (t.reg .d * t.reg .a) = _
    rw [hra, hrd, low_power_succ]
  · show some (decide (low (Word.wrap (t.reg .c) - Word.wrap 1) = 0)) = _
    rw [hrc, low_wrap_sub, low_of_lt (by omega) (by omega)]
    refine congrArg some (decide_eq_decide.2 ?_)
    omega

/-- Jumping on a result that is not zero. -/
theorem exec_jumpIfNotZero {b : Bool} (hzero : t.zero = some b) (target : Label) :
    (Instr.jumpIf .nz target).exec t = if b then .next t else .jump target t := by
  show needing (do return !(← t.zero)) _ = _
  rw [hzero]
  cases b <;> rfl

/-- The loop of a power multiplies by the left operand as often as the right one says. -/
theorem reaches_power {loop done : Label} {a : Int} (hdistinct : Distinct lines)
    (hplaced : Placed lines pos (expandPow loop done)) (hright : s.right = none) (k i : Nat)
    (hk : k < 0x80000000) (hR : Rel start slots s t) (hra : t.reg .a = low a)
    (hrc : t.reg .c = k + 1) (hrd : t.reg .d = low (Word.power a i)) :
    ∃ t', Reaches (stepLine Instr.exec lines) ⟨pos + 5, t⟩ ⟨pos + 8, t'⟩ ∧
      Rel start slots s t' ∧ t'.reg .d = low (Word.power a (i + k + 1)) := by
  have hloop : lines[pos + 4]? = some (.label loop) := hplaced.getElem? rfl
  have hback : lines[pos + 7]? = some (.instr (.jumpIf .nz loop)) := hplaced.getElem? rfl
  have hbody : Placed lines (pos + 5) ([.arithL .imul .a .d, .subImmL 1 .c].map .instr) :=
    hplaced.tail.tail.tail.tail.tail.left (b := [.instr (.jumpIf .nz loop), .label done,
      .instr (.moveL .d .a)])
  induction k generalizing t i with
  | zero =>
    obtain ⟨t', hrun, hR', hra', hrc', hrd', hzero⟩ := run_turn hk hR hright hra hrc hrd
    have hexec : (Instr.jumpIf .nz loop).exec t' = .next t' := exec_jumpIfNotZero hzero loop
    exact ⟨t', (reaches_straight hbody hrun).trans (Advances.of_step (step_next hback hexec)).reaches,
      hR', hrd'⟩
  | succ k ih =>
    obtain ⟨t', hrun, hR', hra', hrc', hrd', hzero⟩ := run_turn hk hR hright hra hrc hrd
    have hexec : (Instr.jumpIf .nz loop).exec t' = .jump loop t' := exec_jumpIfNotZero hzero loop
    obtain ⟨t'', hreaches, hR'', hrd''⟩ := ih (i + 1) (by omega) hR' hra' hrc' hrd'
    have hjump := step_jump hback hexec (resolve_of_distinct hdistinct hloop)
    have hpast : stepLine Instr.exec lines ⟨pos + 4, t'⟩ = .go ⟨pos + 5, t'⟩ := step_label hloop
    refine ⟨t'', (reaches_straight hbody hrun).trans <| (Advances.of_step hjump).reaches.trans <|
      (Advances.of_step hpast).reaches.trans hreaches, hR'', ?_⟩
    rw [hrd'']
    congr 2
    omega

/-- Behind the test of its sign, the code of a power leaves the product in `%edx`. The flags are
those of the test until the loop begins. -/
theorem advances_product {loop done : Label} {a : Int} {n : Nat} (hdistinct : Distinct lines)
    (hplaced : Placed lines pos (expandPow loop done)) (hright : s.right = none)
    (hn : n < 0x80000000) (hR : Rel start slots s t) (hra : t.reg .a = low a)
    (hrc : t.reg .c = n) (hzero : t.zero = some (decide (n = 0))) :
    ∃ t', Advances (stepLine Instr.exec lines) ⟨pos + 2, t⟩ ⟨pos + 8, t'⟩ ∧
      Rel start slots s t' ∧ t'.reg .d = low (Word.power a n) := by
  have hinit : lines[pos + 2]? = some (.instr (.moveImmL 1 .d)) := hplaced.getElem? rfl
  have hskip : lines[pos + 3]? = some (.instr (.jumpIf .z done)) := hplaced.getElem? rfl
  have hloop : lines[pos + 4]? = some (.label loop) := hplaced.getElem? rfl
  have hdone : lines[pos + 8]? = some (.label done) := hplaced.getElem? rfl
  let t₁ := t.setLow .d 1
  have hone : stepLine Instr.exec lines ⟨pos + 2, t⟩ = .go ⟨pos + 3, t₁⟩ := step_next hinit rfl
  have hR₁ : Rel start slots s t₁ := hR.free _
  have hrd : t₁.reg .d = low (Word.power a 0) := by
    rw [low_power_zero]
    rfl
  have hexec : (Instr.jumpIf .z done).exec t₁ = if n = 0 then .jump done t₁ else .next t₁ := by
    show needing t.zero _ = _
    rw [hzero]
    show (if decide (n = 0) = true then _ else _) = _
    simp only [decide_eq_true_eq]
  cases n with
  | zero =>
    have hjump := step_jump hskip hexec (resolve_of_distinct hdistinct hdone)
    exact ⟨_, (Advances.of_step hone).trans (Advances.of_step hjump).reaches, hR₁, hrd⟩
  | succ k =>
    have hnext : stepLine Instr.exec lines ⟨pos + 3, t₁⟩ = .go ⟨pos + 4, t₁⟩ :=
      step_next hskip hexec
    have hpast : stepLine Instr.exec lines ⟨pos + 4, t₁⟩ = .go ⟨pos + 5, t₁⟩ := step_label hloop
    obtain ⟨t', hreaches, hR', hrd'⟩ :=
      reaches_power hdistinct hplaced hright k 0 (by omega) hR₁ hra hrc hrd
    rw [Nat.zero_add] at hrd'
    exact ⟨t', (Advances.of_step hone).trans <| (Advances.of_step hnext).reaches.trans <|
      (Advances.of_step hpast).reaches.trans hreaches, hR', hrd'⟩

theorem answered_pow (loop done : Label) : Answered start slots ⟨.pow, [loop, done]⟩ := by
  intro lines pos s t hdistinct hplaced hR
  have hplaced : Placed lines pos (expandPow loop done) := hplaced
  refine answers_apply hR.result hR.right fun a b ha hb hra hrc => ?_
  have htest := exec_testL .c hb hrc
  have hsign : (Instr.jumpIf .s (.trap "neg_exp")).exec (t.flag b) =
      if b < 0 then .jump (.trap "neg_exp") (t.flag b) else .next (t.flag b) := by
    show (if decide (Word.wrap b < 0) = true then _ else _) = _
    simp only [Word.wrap_of_inRange hb, decide_eq_true_eq]
  have hR₁ : Rel start slots s (t.flag b) := hR.congr _ rfl rfl
  by_cases hneg : b < 0
  · rw [if_pos hneg] at hsign
    rw [StackState.applied_pow_neg hneg]
    exact answers_jump [Instr.testL .c .c] hplaced (runStraight_cons htest) hsign
      hR₁.forgetResult.forgetRight
  rw [if_neg hneg] at hsign
  rw [StackState.applied_pow hneg]
  obtain ⟨n, rfl⟩ := Int.eq_ofNat_of_zero_le (Int.not_lt.1 hneg)
  have hn : n < 0x80000000 := Int.ofNat_lt.1 hb.2
  have hrc : t.reg .c = n := by rw [hrc, low_of_lt (by omega) (by omega)]
  have hzero : (t.flag n).zero = some (decide (n = 0)) := by
    show some (decide (low n = 0)) = _
    rw [low_of_lt (by omega) (by omega)]
    exact congrArg some (decide_eq_decide.2 Int.natCast_eq_zero)
  obtain ⟨t', hadvances, hR', hrd'⟩ :=
    advances_product hdistinct hplaced rfl hn hR₁.forgetRight hra hrc hzero
  have hjs : lines[pos + 1]? = some (.instr (.jumpIf .s (.trap "neg_exp"))) := hplaced.getElem? rfl
  have hdone : lines[pos + 8]? = some (.label done) := hplaced.getElem? rfl
  have hlast : lines[pos + 9]? = some (.instr (.moveL .d .a)) := hplaced.getElem? rfl
  have hfirst : stepLine Instr.exec lines ⟨pos, t⟩ = .go ⟨pos + 1, t.flag n⟩ :=
    step_next hplaced.head htest
  have hsecond : stepLine Instr.exec lines ⟨pos + 1, t.flag n⟩ = .go ⟨pos + 2, t.flag n⟩ :=
    step_next hjs hsign
  have hpast : stepLine Instr.exec lines ⟨pos + 8, t'⟩ = .go ⟨pos + 9, t'⟩ := step_label hdone
  have hmove : stepLine Instr.exec lines ⟨pos + 9, t'⟩ =
      .go ⟨pos + 10, t'.setLow .a (t'.reg .d)⟩ := step_next hlast rfl
  refine ⟨_, (Advances.of_step hfirst).trans <| (Advances.of_step hsecond).reaches.trans <|
    hadvances.reaches.trans <| (Advances.of_step hpast).reaches.trans
      (Advances.of_step hmove).reaches, hR'.setResult (Word.wrap_inRange _) ?_⟩
  rw [hrd', low_low]
  rfl

/-! ## Leaving -/

/-- The frame is left as it was found, with the result in `%eax`. -/
theorem answered_epilogue (scratch : List Label) : Answered start slots ⟨.epilogue, scratch⟩ := by
  intro lines pos s t _ hplaced hR
  rcases epilogue_cases s with hexec | ⟨v, -, hresult, hexec⟩ <;> rw [hexec]
  · trivial
  obtain ⟨hv, hra⟩ := hR.result v hresult
  have hkept : ∀ a, start.reg .sp - 8 ≤ a → t.memory a = savedMemory start a := hR.holds.kept
  have hsaved : t.memory (start.reg .sp - 8) = some (start.reg .bp) :=
    (hkept _ (Int.le_refl _)).trans (savedMemory_bp start)
  let t₁ := t.set .sp (start.reg .sp - 8)
  let t₂ := (t₁.set .sp (start.reg .sp)).set .bp (start.reg .bp)
  have hmove : (Instr.moveQ .bp .sp).exec t = .next t₁ := by
    show Effect.next (t.set .sp (t.reg .bp)) = _
    rw [hR.framePointer]
  have hpop : (Instr.pop .bp).exec t₁ = .next t₂ := by
    show needing (t.memory (start.reg .sp - 8)) (fun n =>
      .next ((t₁.set .sp (start.reg .sp - 8 + 8)).set .bp n)) = _
    rw [hsaved, Int.sub_add_cancel]
    rfl
  have hrun : runStraight Instr.exec [.moveQ .bp .sp, .pop .bp] t = some t₂ := by
    rw [runStraight_cons hmove, runStraight_cons hpop]
    rfl
  have hstraight : Placed lines pos ([.moveQ .bp .sp, .pop .bp].map .instr) :=
    hplaced.left (b := [.instr .ret])
  have hret : lines[pos + 2]? = some (.instr .ret) := hplaced.getElem? rfl
  refine ⟨pos + 2, _, (reaches_straight hstraight hrun).ends (.of_step (step_stop hret rfl)),
    hv, hra, rfl, rfl, fun a ha => ?_⟩
  exact (hkept a (by omega)).trans (savedMemory_above start ha)

/-- The lines of each step do what its operation does. -/
theorem answered {step : Step} (h : ∃ k, step = step.op.step .x86 k) :
    Answered start slots step := by
  obtain ⟨k, hk⟩ := h
  obtain ⟨op, scratch⟩ := step
  cases op with
  | pushImm n => exact answered_pushImm n scratch
  | pushResult => exact answered_pushResult scratch
  | popResult => exact answered_popResult scratch
  | popOperands => exact answered_popOperands scratch
  | storeTop => exact answered_storeTop scratch
  | loadZero => exact answered_loadZero scratch
  | loadVar slot => exact answered_loadVar slot scratch
  | storeVar slot => exact answered_storeVar slot scratch
  | arith op =>
    by_cases hdiv : op = .div
    · subst hdiv
      rw [hk]
      exact answered_div _ _
    · exact answered_arith op scratch hdiv
  | compare op => exact answered_compare op scratch
  | pow =>
    rw [hk]
    exact answered_pow _ _
  | negate => exact answered_negate scratch
  | branch target => exact answered_branch target scratch
  | branchIfNotPositive target => exact answered_branchIfNotPositive target scratch
  | epilogue => exact answered_epilogue scratch
  | prologue name slots => exact fun _ _ _ _ _ _ _ => trivial
  | label l =>
    intro lines pos s t _ hplaced hR
    exact ⟨t, Advances.of_step (step_label hplaced.head), hR⟩
  | trap code =>
    intro lines pos s t _ hplaced hR
    exact ⟨pos, .aborted, .of_step (step_stop hplaced.head rfl), rfl⟩
  | textSection =>
    intro lines pos s t _ hplaced hR
    exact ⟨t, Advances.of_step (step_directive hplaced.head), hR⟩
  | global name =>
    intro lines pos s t _ hplaced hR
    exact ⟨t, Advances.of_step (step_directive hplaced.head), hR⟩
  | comment text =>
    intro lines pos s t _ hplaced hR
    exact ⟨t, Advances.of_step (step_comment hplaced.head), hR⟩

end Answers

end Imp32.Assembly.X86
