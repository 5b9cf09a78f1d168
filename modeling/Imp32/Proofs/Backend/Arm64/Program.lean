import Imp32.Proofs.Backend.Arm64.Simulation

/-!
# Programs on AArch64

The lines of a program, run from its entry, return the value of the program, break with the code of
its failure, or run forever as it does (`Behaves`).
-/

namespace Imp32.Assembly.Arm64

/-! ## Labels -/

/-- The lines of a step set its labels. -/
theorem labels_expand {step : Step} (h : ∃ k, step = step.op.step .arm64 k) :
    (expand step).filterMap Line.label? = step.labels := by
  obtain ⟨k, hk⟩ := h
  rw [hk]
  obtain ⟨op, scratch⟩ := step
  cases op with
  | pushImm n =>
    show ((moveBits .r0 (bits n)).map Line.instr ++ [Line.instr (Instr.push .r0)]).filterMap Line.label? = []
    rw [List.filterMap_append, labels_instr]
    rfl
  | prologue name slots =>
    show Label.named name :: (List.map Line.instr _).filterMap Line.label? = [.named name]
    rw [labels_instr]
  | arith op => cases op <;> rfl
  | compare op => cases op <;> rfl
  | _ => rfl

theorem expands {steps : List Step} (h : ∀ step ∈ steps, ∃ k, step = step.op.step .arm64 k) :
    Expands expand steps where
  labels step hstep := labels_expand (h step hstep)
  label step _ l hop := by
    unfold expand
    rw [hop]

/-! ## Entering a function -/

def entering (slots : Int) : List Instr :=
  [.pushPair .r29 .r30, .moveX .r29 .sp, .push .r19] ++ reserve (frameSize slots) ++
    .moveX .r19 .sp :: clearSlots slots

section Entering

variable {t : State}

/-- The stack pointer goes down by the low half of the amount. -/
theorem run_reserve {amount : Int} (h : 0 ≤ amount) (is : List Instr) :
    ∃ t', runStraight Instr.exec (reserve amount ++ is) t = runStraight Instr.exec is t' ∧
      t'.reg .sp = t.reg .sp - low amount ∧ t'.reg .r29 = t.reg .r29 ∧ t'.memory = t.memory := by
  unfold reserve
  by_cases hzero : amount = 0
  · rw [if_pos hzero, hzero]
    exact ⟨t, rfl, (Int.sub_zero _).symm, rfl, rfl⟩
  rw [if_neg hzero]
  by_cases hsmall : amount ≤ 4095
  · rw [if_pos hsmall, low_of_lt h (by omega)]
    exact ⟨t.set .sp (t.reg .sp - amount), rfl, rfl, rfl, rfl⟩
  rw [if_neg hsmall]
  have hbits : low (bits amount) = low amount := by rw [natCast_bits, low_low]
  refine ⟨(t.setLow .r9 (bits amount)).set .sp (t.reg .sp - low (bits amount)), ?_, ?_, rfl, rfl⟩
  · rw [List.append_assoc, run_moveBits]
    rfl
  · rw [hbits]
    rfl

/-- The slots are cleared one after the other. -/
theorem run_stores (ks : List Nat) :
    runStraight Instr.exec (ks.map fun k => .store .r9 .r19 (k * 8 : Nat)) t =
      some { t with memory := ks.foldl (fun m (k : Nat) =>
        m.store (t.reg .r19 + (k * 8 : Nat)) (t.reg .r9)) t.memory } := by
  induction ks generalizing t with
  | nil => rfl
  | cons k ks ih =>
    rw [List.map_cons]
    exact (runStraight_cons rfl).trans (ih (t := t.store (t.reg .r19 + (k * 8 : Nat)) (t.reg .r9)))

theorem run_clearSlots {f : Frame} (n : Nat)
    (hslot : ∀ k : Nat, t.reg .r19 + (k * 8 : Nat) = f.slot k) :
    ∃ t', runStraight Instr.exec (clearSlots n) t = some t' ∧
      t'.memory = f.clear t.memory n ∧ ∀ r, r ≠ .r9 → t'.reg r = t.reg r := by
  unfold clearSlots
  by_cases hn : (n : Int) = 0
  · rw [if_pos hn]
    have hn : n = 0 := by omega
    subst hn
    exact ⟨t, rfl, rfl, fun _ _ => rfl⟩
  rw [if_neg hn]
  refine ⟨_, (runStraight_cons rfl).trans (run_stores (List.range n)), ?_, ?_⟩
  · show (List.range n).foldl (fun m (k : Nat) => m.store (t.reg .r19 + (k * 8 : Nat))
      0xFFFFFFFFFFFFFFFF) t.memory = _
    simp only [hslot]
    rfl
  · intro r hr
    exact if_neg hr

/-- A prologue clears the slots from the new stack pointer on. Of the frame's size only the low half
counts. -/
theorem run_prologue (start : State) (n : Nat) {f : Frame} (hslot : ∀ k : Nat,
      start.reg .sp - 32 - low (frameSize n) + (k * 8 : Nat) = f.slot k) :
    ∃ t, runStraight Instr.exec (entering n) start = some t ∧
      t.memory = f.clear (savedMemory start) n ∧
      t.reg .sp = start.reg .sp - 32 - low (frameSize n) ∧ t.reg .r19 = t.reg .sp ∧
      t.reg .r29 = start.reg .sp - 16 := by
  have hnonneg : 0 ≤ frameSize n := by
    unfold frameSize
    omega
  let saved : State := ((((start.store (start.reg .sp - 16) (start.reg .r29)).store
    (start.reg .sp - 16 + 8) (start.reg .r30)).set .sp (start.reg .sp - 16)).set .r29
      (start.reg .sp - 16)).store (start.reg .sp - 16 - 16) (start.reg .r19) |>.set .sp
        (start.reg .sp - 16 - 16)
  have hsaved : runStraight Instr.exec [.pushPair .r29 .r30, .moveX .r29 .sp, .push .r19] start =
      some saved := rfl
  obtain ⟨t₁, hreserve, hsp, hfp, hmemory⟩ := run_reserve (t := saved) hnonneg
    (.moveX .r19 .sp :: clearSlots n)
  have hbase : t₁.reg .sp = start.reg .sp - 32 - low (frameSize n) := by
    rw [hsp]
    show start.reg .sp - 16 - 16 - low (frameSize n) = _
    omega
  have hslots : ∀ k : Nat, (t₁.set .r19 (t₁.reg .sp)).reg .r19 + (k * 8 : Nat) = f.slot k := by
    intro k
    rw [← hslot k, ← hbase]
    rfl
  obtain ⟨t₂, hclear, hmemory', hreg⟩ := run_clearSlots n hslots
  refine ⟨t₂, ?_, ?_, ?_, ?_, ?_⟩
  · unfold entering
    rw [List.append_assoc, runStraight_append hsaved, hreserve, runStraight_cons rfl]
    exact hclear
  · rw [hmemory']
    show f.clear t₁.memory n = _
    rw [hmemory]
    rfl
  · rw [hreg .sp (by decide)]
    exact hbase
  · rw [hreg .r19 (by decide), hreg .sp (by decide)]
    rfl
  · rw [hreg .r29 (by decide)]
    exact hfp

/-- A prologue brings the state that the function is entered in. -/
theorem run_entering (start : State) (n : Nat) (hsize : frameSize n < 0x100000000) :
    ∃ t, runStraight Instr.exec (entering n) start = some t ∧ Rel start n (.entered n) t := by
  have hlow : low (frameSize n) = frameSize n := by
    refine low_of_lt ?_ hsize
    unfold frameSize
    omega
  have hslot : ∀ k : Nat, start.reg .sp - 32 - low (frameSize n) + (k * 8 : Nat) =
      (frame (start.reg .sp) n).slot k := by
    intro k
    rw [hlow]
    show _ = start.reg .sp - 32 - frameSize n + 8 * (k : Int)
    omega
  obtain ⟨t, hrun, hmemory, hsp, hbase, hfp⟩ := run_prologue start n hslot
  rw [hlow] at hsp
  have hsp : t.reg .sp = (frame (start.reg .sp) n).base := hsp
  refine ⟨t, hrun, ?_, hsp.trans (Frame.top_nil _).symm, hbase.trans hsp, hfp, nofun, nofun⟩
  rw [hmemory]
  exact Frame.holds_clear _ _

end Entering

/-! ## Machines that have the instructions -/

section Fitting

variable {fits : Instr → Bool} {lines : List (Line Instr)} {i : Instr} {s : State}

theorem encodable_moveBits (dst : Reg) (n : Int) :
    ∀ i ∈ moveBits dst (bits n), i.encodable = true := by
  have hn : bits n < 0x100000000 := by
    unfold bits
    omega
  unfold moveBits
  by_cases h : bits n ≤ 0xFFFF
  · rw [if_pos h]
    simpa [Instr.encodable] using h
  · rw [if_neg h]
    simp only [List.mem_cons, List.not_mem_nil, or_false, forall_eq_or_imp, forall_eq,
      Instr.encodable, decide_eq_true_eq]
    omega

/-- The instruction gets at a slot that is too far from the first one for an immediate offset. -/
def Instr.TooFar (slots : Nat) (i : Instr) : Prop :=
  ∃ r offset, 32760 < offset ∧ offset + 8 ≤ 8 * (slots : Int) ∧
    (i = .store r .r19 offset ∨ i = .load r .r19 offset)

/-- No slot is too far if there are few. -/
theorem not_tooFar {slots : Nat} (hslots : slots ≤ 4096) (i : Instr) : ¬i.TooFar slots := by
  rintro ⟨r, offset, hfar, hslot, -⟩
  omega

/-- The offset of a slot fits, or it is too far. -/
theorem encodable_or_tooFar {slots k : Nat} (hk : k < slots) {r : Reg} {offset : Int}
    (hoffset : offset = 8 * (k : Int)) {i : Instr}
    (hi : i = .store r .r19 offset ∨ i = .load r .r19 offset) :
    i.encodable = true ∨ i.TooFar slots := by
  by_cases hfar : 32760 < offset
  · exact .inr ⟨r, offset, hfar, by omega, hi⟩
  · left
    rcases hi with rfl | rfl
    · exact decide_eq_true (.inl (by omega))
    · exact decide_eq_true (.inl (by omega))

/-- The operands of the inner code, the epilogue and the handlers fit, but for those of slots that
are too far. -/
theorem encodable_or_tooFar_expand {slots : Nat} {step : Step} (h : step.op.BehindOpening slots) :
    ∀ i, .instr i ∈ expand step → i.encodable = true ∨ i.TooFar slots := by
  obtain ⟨op, scratch⟩ := step
  dsimp only at h
  rcases h with h | rfl | ⟨kind, code, hcode, rfl⟩
  · cases op with
    | pushImm n =>
      intro i hi
      rcases List.mem_append.1 hi with hi | hi
      · obtain ⟨i', hi', heq⟩ := List.mem_map.1 hi
        cases heq
        exact .inl (encodable_moveBits .r0 n i hi')
      · cases List.mem_singleton.1 hi
        exact .inl rfl
    | loadVar slot =>
      obtain ⟨k, hk, rfl⟩ := h
      intro i hi
      rcases List.mem_cons.1 hi with heq | hi
      · cases heq
        exact encodable_or_tooFar hk (Int.mul_comm _ _) (.inr rfl)
      · refine .inl ?_
        simp only [List.mem_cons, List.not_mem_nil, or_false, Line.instr.injEq] at hi
        rcases hi with rfl | rfl
        · rfl
        · rfl
    | storeVar slot =>
      obtain ⟨k, hk, rfl⟩ := h
      intro i hi
      cases List.mem_singleton.1 hi
      exact encodable_or_tooFar hk (Int.mul_comm _ _) (.inl rfl)
    | arith op =>
      refine fun i hi => .inl ?_
      revert i
      cases op <;> simp [expand, arith?, Instr.encodable]
    | compare op =>
      refine fun i hi => .inl ?_
      revert i
      cases op <;> simp [expand, cond?, Instr.encodable]
    | pow =>
      refine fun i hi => .inl ?_
      revert i
      rcases scratch with _ | ⟨loop, _ | ⟨done, _ | ⟨_, _⟩⟩⟩ <;>
        simp [expand, expandPow, Instr.encodable]
    | _ => first | exact h.elim | exact fun i hi => .inl (by revert i; simp [expand, Instr.encodable])
  · exact fun i hi => .inl (by revert i; simp [expand, Instr.encodable])
  · refine fun i hi => .inl ?_
    unfold trapCode? at hcode
    revert i
    split at hcode <;> cases hcode <;> simp [expand, Instr.encodable]

theorem encodable_expand {slots : Nat} (hslots : slots ≤ 4096) {step : Step}
    (h : step.op.BehindOpening slots) : ∀ i, Line.instr i ∈ expand step → i.encodable = true :=
  fun i hi => (encodable_or_tooFar_expand h i hi).resolve_right (not_tooFar hslots i)

theorem encodable_reserve {amount : Int} (h : 0 ≤ amount) :
    ∀ i ∈ reserve amount, i.encodable = true := by
  unfold reserve
  by_cases hzero : amount = 0
  · rw [if_pos hzero]
    simp
  rw [if_neg hzero]
  by_cases hsmall : amount ≤ 4095
  · rw [if_pos hsmall]
    simp [Instr.encodable, h, hsmall]
  rw [if_neg hsmall]
  intro i hi
  rcases List.mem_append.1 hi with hi | hi
  · exact encodable_moveBits .r9 amount i hi
  · cases List.mem_singleton.1 hi
    rfl

/-- A slot is within reach if there are less than 4096 before it. -/
theorem encodable_store_iff (k : Nat) :
    (Instr.store .r9 .r19 (k * 8 : Nat)).encodable = true ↔ k < 4096 := by
  show decide (_ ∨ _) = true ↔ _
  rw [decide_eq_true_iff]
  omega

theorem frameSize_nonneg (slots : Nat) : 0 ≤ frameSize slots := by
  unfold frameSize
  omega

theorem encodable_or_tooFar_entering {slots : Nat} :
    ∀ i ∈ entering slots, i.encodable = true ∨ i.TooFar slots := by
  unfold entering clearSlots
  simp only [List.mem_append, List.mem_cons]
  rintro i ((hi | hi) | rfl | hi)
  · rcases hi with rfl | rfl | rfl | hi
    · exact .inl rfl
    · exact .inl rfl
    · exact .inl rfl
    · cases hi
  · exact .inl (encodable_reserve (frameSize_nonneg slots) i hi)
  · exact .inl rfl
  · split at hi
    · cases hi
    · rcases List.mem_cons.1 hi with rfl | hi
      · exact .inl rfl
      · obtain ⟨k, hk, rfl⟩ := List.mem_map.1 hi
        rw [Int.toNat_natCast, List.mem_range] at hk
        exact encodable_or_tooFar hk (by omega) (.inl rfl)

theorem encodable_or_tooFar_opening {slots : Nat} : ∀ op ∈ Op.opening slots,
    ∀ i, .instr i ∈ expand ⟨op, []⟩ → i.encodable = true ∨ i.TooFar slots := by
  simp only [Op.opening, List.mem_cons, List.not_mem_nil, or_false]
  rintro op (rfl | rfl | rfl) i hi
  · simp [expand] at hi
  · simp [expand] at hi
  · rcases List.mem_cons.1 hi with hi | hi
    · cases hi
    · obtain ⟨i', hi', heq⟩ := List.mem_map.1 hi
      cases heq
      exact encodable_or_tooFar_entering i hi'

theorem encodable_opening {slots : Nat} (hslots : slots ≤ 4096) :
    ∀ op ∈ Op.opening slots, ∀ i, .instr i ∈ expand ⟨op, []⟩ → i.encodable = true :=
  fun op hop i hi => (encodable_or_tooFar_opening op hop i hi).resolve_right (not_tooFar hslots i)

/-- Instructions that always go on with the next line. -/
def Passes (i : Instr) : Prop := ∀ s, ∃ s', i.exec s = .next s'

theorem exists_runStraight {is : List Instr} (hfits : ∀ i ∈ is, fits i = true)
    (hpasses : ∀ i ∈ is, Passes i) (s : State) :
    ∃ s', runStraight (execIf fits Instr.exec) is s = some s' := by
  induction is generalizing s with
  | nil => exact ⟨s, rfl⟩
  | cons i is ih =>
    obtain ⟨s₁, hs₁⟩ := hpasses i List.mem_cons_self s
    rw [runStraight_cons ((execIf_of_fits (hfits i List.mem_cons_self)).trans hs₁)]
    exact ih (fun i' hi' => hfits i' (List.mem_cons_of_mem i hi'))
      (fun i' hi' => hpasses i' (List.mem_cons_of_mem i hi')) s₁

theorem passes_reserve {amount : Int} : ∀ i ∈ reserve amount, Passes i := by
  have hbits : ∀ i ∈ moveBits .r9 (bits amount), Passes i := by
    unfold moveBits
    split
    · simp only [List.mem_singleton, forall_eq]
      exact fun s => ⟨_, rfl⟩
    · simp only [List.mem_cons, List.not_mem_nil, or_false, forall_eq_or_imp, forall_eq]
      exact ⟨fun s => ⟨_, rfl⟩, fun s => ⟨_, rfl⟩⟩
  unfold reserve
  split
  · simp
  split
  · simp only [List.mem_singleton, forall_eq]
    exact fun s => ⟨_, rfl⟩
  · intro i hi
    rcases List.mem_append.1 hi with hi | hi
    · exact hbits i hi
    · cases List.mem_singleton.1 hi
      exact fun s => ⟨_, rfl⟩

theorem range_split (n m : Nat) :
    List.range (n + (m + 1)) = List.range n ++ n :: (List.range m).map (n + · + 1) := by
  rw [List.range_add, List.range_succ_eq_map]
  simp [Function.comp_def, Nat.add_assoc]

theorem clearSlots_split (n m : Nat) : clearSlots (n + (m + 1) : Nat) =
    (.moveImmX .r9 (-1) :: (List.range n).map fun k => .store .r9 .r19 (k * 8 : Nat)) ++
      Instr.store .r9 .r19 (n * 8 : Nat) ::
        ((List.range m).map (n + · + 1)).map fun k => .store .r9 .r19 (k * 8 : Nat) := by
  have hne : ((n + (m + 1) : Nat) : Int) ≠ 0 := by omega
  unfold clearSlots
  rw [if_neg hne, Int.toNat_natCast, range_split, List.map_append, List.map_cons, List.cons_append]

/-- The slots before one are cleared first. -/
theorem entering_split {slots n : Nat} (h : n < slots) : ∃ before rest,
    entering slots = before ++ Instr.store .r9 .r19 (n * 8 : Nat) :: rest ∧
      ∀ i ∈ before, Passes i ∧
        (i.encodable = true ∨ ∃ k < n, i = .store .r9 .r19 (k * 8 : Nat)) := by
  obtain ⟨m, rfl⟩ : ∃ m, slots = n + (m + 1) := ⟨slots - n - 1, by omega⟩
  refine ⟨[.pushPair .r29 .r30, .moveX .r29 .sp, .push .r19] ++
    reserve (frameSize (n + (m + 1) : Nat)) ++ (.moveX .r19 .sp :: .moveImmX .r9 (-1) ::
      (List.range n).map fun k => .store .r9 .r19 (k * 8 : Nat)),
    ((List.range m).map (n + · + 1)).map fun k => .store .r9 .r19 (k * 8 : Nat), ?_, ?_⟩
  · unfold entering
    rw [clearSlots_split]
    exact (List.append_assoc _ (_ :: _) _).symm
  · intro i hi
    rcases List.mem_append.1 hi with hi | hi
    · rcases List.mem_append.1 hi with hi | hi
      · simp only [List.mem_cons, List.not_mem_nil, or_false] at hi
        rcases hi with rfl | rfl | rfl
        · exact ⟨fun s => ⟨_, rfl⟩, .inl rfl⟩
        · exact ⟨fun s => ⟨_, rfl⟩, .inl rfl⟩
        · exact ⟨fun s => ⟨_, rfl⟩, .inl rfl⟩
      · exact ⟨passes_reserve i hi, .inl (encodable_reserve (frameSize_nonneg _) i hi)⟩
    · simp only [List.mem_cons, List.mem_map, List.mem_range] at hi
      rcases hi with rfl | rfl | ⟨k, hk, rfl⟩
      · exact ⟨fun s => ⟨_, rfl⟩, .inl rfl⟩
      · exact ⟨fun s => ⟨_, rfl⟩, .inl rfl⟩
      · exact ⟨fun s => ⟨_, rfl⟩, .inr ⟨k, hk, rfl⟩⟩

/-- The prologue of a function with too many slots stores out of reach. -/
theorem ends_stuck_of_entering {slots pos : Nat} (hslots : 4096 < slots)
    (hplaced : Placed lines pos ((entering slots).map .instr)) (s : State) :
    Ends (stepLine (execIf Instr.encodable Instr.exec) lines) ⟨pos, s⟩ .stuck := by
  obtain ⟨before, rest, hsplit, hbefore⟩ := entering_split hslots
  have hfits : ∀ i ∈ before, i.encodable = true := by
    intro i hi
    rcases (hbefore i hi).2 with h | ⟨k, hk, rfl⟩
    · exact h
    · exact (encodable_store_iff k).2 hk
  obtain ⟨s', hs'⟩ := exists_runStraight hfits (fun i hi => (hbefore i hi).1) s
  rw [hsplit, List.map_append, List.map_cons] at hplaced
  have hstore := hplaced.right.head
  rw [List.length_map] at hstore
  have hstuck : execIf Instr.encodable Instr.exec (.store .r9 .r19 (4096 * 8 : Nat)) s' = .stuck :=
    if_neg (mt (encodable_store_iff 4096).1 (Nat.lt_irrefl _))
  exact (reaches_straight hplaced.left hs').ends (.of_step (step_stuck hstore hstuck))

end Fitting

end Imp32.Assembly.Arm64
