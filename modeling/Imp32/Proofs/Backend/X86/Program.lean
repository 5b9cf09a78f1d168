import Imp32.Proofs.Backend.X86.Simulation

/-!
# Programs on x86-64

The lines of a program set the labels of its steps (`expands`), and the prologue brings the state
that the function is entered in (`run_entering`), however many slots there are. The operands of its
instructions have an encoding as long as the frame has less than 2³¹ bytes.
-/

namespace Imp32.Assembly.X86

/-- The lines of a step set its labels. -/
theorem labels_expand {step : Step} (h : ∃ k, step = step.op.step .x86 k) :
    (expand step).filterMap Line.label? = step.labels := by
  obtain ⟨k, hk⟩ := h
  rw [hk]
  obtain ⟨op, scratch⟩ := step
  cases op with
  | prologue name slots =>
    show Label.named name :: (List.map Line.instr _).filterMap Line.label? = [.named name]
    rw [labels_instr]
  | arith op => cases op <;> rfl
  | compare op => cases op <;> rfl
  | _ => rfl

theorem expands {steps : List Step} (h : ∀ step ∈ steps, ∃ k, step = step.op.step .x86 k) :
    Expands expand steps where
  labels step hstep := labels_expand (h step hstep)
  label step _ l hop := by
    unfold expand
    rw [hop]

/-! ## Entering a function -/

def entering (slots : Int) : List Instr :=
  .push .bp :: .moveQ .sp .bp :: (reserve (frameSize slots) ++ clearSlots slots)

theorem frameSize_nonneg (slots : Nat) : 0 ≤ frameSize slots := by
  unfold frameSize
  omega

section Entering

variable {t : State}

theorem run_reserve {amount : Int} (h : 0 ≤ amount) (is : List Instr) :
    ∃ t', runStraight Instr.exec (reserve amount ++ is) t = runStraight Instr.exec is t' ∧
      t'.reg .sp = t.reg .sp - amount ∧ t'.reg .bp = t.reg .bp ∧ t'.memory = t.memory := by
  unfold reserve
  by_cases hzero : amount ≤ 0
  · rw [if_pos hzero]
    exact ⟨t, rfl, by omega, rfl, rfl⟩
  · rw [if_neg hzero]
    exact ⟨t.unflag.set .sp (t.reg .sp - amount), rfl, rfl, rfl, rfl⟩

/-- The slots are cleared one after the other. -/
theorem run_stores (ks : List Nat) :
    runStraight Instr.exec (ks.map fun (k : Nat) => .storeImm (-1) (slotOffset k) .bp) t =
      some { t with memory := ks.foldl (fun m (k : Nat) =>
        m.store (t.reg .bp + slotOffset k) 0xFFFFFFFFFFFFFFFF) t.memory } := by
  induction ks generalizing t with
  | nil => rfl
  | cons k ks ih =>
    rw [List.map_cons]
    exact (runStraight_cons rfl).trans
      (ih (t := t.store (t.reg .bp + slotOffset k) 0xFFFFFFFFFFFFFFFF))

theorem run_clearSlots {sp : Int} (n : Nat) (hbase : t.reg .bp = sp - 8) :
    runStraight Instr.exec (clearSlots n) t =
      some { t with memory := (frame sp n).clear t.memory n } := by
  unfold clearSlots
  rw [Int.toNat_natCast, run_stores, hbase]
  rfl

/-- A prologue brings the state that the function is entered in. -/
theorem run_entering (start : State) (n : Nat) :
    ∃ t, runStraight Instr.exec (entering n) start = some t ∧ Rel start n (.entered n) t := by
  let saved : State :=
    ((start.store (start.reg .sp - 8) (start.reg .bp)).set .sp (start.reg .sp - 8)).set .bp
      (start.reg .sp - 8)
  obtain ⟨t, hreserve, hsp, hfp, hmemory⟩ :=
    run_reserve (t := saved) (frameSize_nonneg n) (clearSlots n)
  have hclear : runStraight Instr.exec (clearSlots n) t = _ := run_clearSlots n hfp
  refine ⟨{ t with memory := (frame (start.reg .sp) n).clear t.memory n },
    hreserve.trans hclear, ?_, ?_, hfp, nofun, nofun⟩
  · rw [hmemory]
    exact Frame.holds_clear _ _
  · show t.reg .sp = (frame (start.reg .sp) n).top []
    rw [hsp, Frame.top_nil]
    rfl

end Entering

/-! ## Operands that have an encoding -/

section Fitting

variable {slots : Nat} (hsize : frameSize slots < 0x80000000)

include hsize

theorem slotOffset_inRange {k : Nat} (hk : k < slots) : Word.InRange (slotOffset k) := by
  unfold frameSize at hsize
  unfold Word.InRange slotOffset
  omega

theorem encodable_expand {step : Step} (h : step.op.BehindOpening slots) :
    ∀ i, .instr i ∈ expand step → i.encodable = true := by
  have hbits : ∀ n : Int, bits n < 0x100000000 := by
    intro n
    unfold bits
    omega
  have hoffset : ∀ slot : Int, (∃ k < slots, slot = (k : Nat)) → Word.InRange (slotOffset slot) := by
    rintro _ ⟨k, hk, rfl⟩
    exact slotOffset_inRange hsize hk
  have hsmall : Word.InRange (-1) ∧ Word.InRange 0 ∧ Word.InRange 16 ∧ Word.InRange 32 := by
    decide
  obtain ⟨op, scratch⟩ := step
  rcases h with h | rfl | ⟨kind, code, -, rfl⟩
  · cases op with
    | pushImm n => simp [expand, pushResult, Instr.encodable, hbits, hsmall]
    | loadVar slot => simp [expand, Instr.encodable, hoffset slot h]
    | storeVar slot => simp [expand, Instr.encodable, hoffset slot h]
    | arith op =>
      cases op with
      | div =>
        rcases scratch with _ | ⟨byMinusOne, _ | ⟨done, _ | ⟨_, _⟩⟩⟩ <;>
          simp [expand, expandDiv, Instr.encodable, hsmall]
      | _ => simp [expand, Instr.encodable]
    | compare op => cases op <;> simp [expand, cond?, Instr.encodable]
    | pow =>
      rcases scratch with _ | ⟨loop, _ | ⟨done, _ | ⟨_, _⟩⟩⟩ <;>
        simp [expand, expandPow, Instr.encodable]
    | _ => first | exact h.elim | simp [expand, pushResult, Instr.encodable, hsmall]
  · simp [expand, Instr.encodable]
  · simp [expand, Instr.encodable]

theorem encodable_entering : ∀ i ∈ entering slots, i.encodable = true := by
  have hframe : Word.InRange (frameSize slots) :=
    ⟨Int.le_trans (by decide) (frameSize_nonneg slots), hsize⟩
  unfold entering reserve clearSlots
  simp only [List.mem_append, List.mem_cons]
  rintro i (rfl | rfl | hi | hi)
  · rfl
  · rfl
  · split at hi
    · cases hi
    · cases List.mem_singleton.1 hi
      simpa only [Instr.encodable, decide_eq_true_eq] using hframe
  · obtain ⟨k, hk, rfl⟩ := List.mem_map.1 hi
    rw [Int.toNat_natCast, List.mem_range] at hk
    simp only [Instr.encodable, decide_eq_true_eq]
    exact ⟨by decide, slotOffset_inRange hsize hk⟩

theorem encodable_opening :
    ∀ op ∈ Op.opening slots, ∀ i, .instr i ∈ expand ⟨op, []⟩ → i.encodable = true := by
  simp only [Op.opening, List.mem_cons, List.not_mem_nil, or_false]
  rintro op (rfl | rfl | rfl) i hi
  · simp [expand] at hi
  · simp [expand] at hi
  · rcases List.mem_cons.1 hi with hi | hi
    · cases hi
    · obtain ⟨i', hi', heq⟩ := List.mem_map.1 hi
      cases heq
      exact encodable_entering hsize i hi'

end Fitting

end Imp32.Assembly.X86
