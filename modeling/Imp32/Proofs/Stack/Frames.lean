import Imp32.Proofs.Compiler.Lookups
import Imp32.Proofs.Stack.Arm64
import Imp32.Proofs.Stack.X86

/-!
# Slots and frames

The names that are collected, the slots that the code uses and the frame that the prologue lays out
fit together on both targets (`Program.slots_agree`): a slot for each name that occurs, no other slot
in use, and for each slot a cell of its own in the frame, unassigned where the function begins.
-/

namespace Imp32

open Assembly

namespace Assembly

/-- The cells of the slots lie apart from each other in a frame of whole pairs, and all of them are
unassigned. -/
structure Cleared (m : Memory) (base size : Int) (slots : Nat) (cell : Nat → Int) : Prop where
  pairs : 16 ∣ size
  inside : ∀ k < slots, base ≤ cell k ∧ cell k + 8 ≤ base + size
  apart : ∀ j < slots, ∀ k < slots, j ≠ k → Apart (cell j) (cell k)
  unassigned : ∀ k < slots, m (cell k) = some 0xFFFFFFFFFFFFFFFF

/-- A frame with cleared slots in whole pairs. -/
theorem Frame.cleared (f : Frame) {m : Memory}
    (hclear : ∀ k < f.slots, m (f.slot k) = some (cell none))
    (hlimit : f.limit ≤ f.base + frameSize f.slots) :
    Cleared m f.base (frameSize f.slots) f.slots f.slot where
  pairs := Int.dvd_mul_left _ _
  inside k hk := ⟨(f.within k hk).1, Int.le_trans (f.within k hk).2 hlimit⟩
  apart := f.apart
  unassigned := hclear

section Platforms

variable {Instr σ ο : Type}

/-- The cell that a line gets at, if instructions get at these cells. -/
def Line.cell? (cell? : Instr → σ → Option Int) (s : σ) : Line Instr → Option Int
  | .instr i => cell? i s
  | _ => none

/-- What a function that was entered in a state has when its prologue has come to another one. -/
structure Platform.SetUp (t : Platform Instr σ ο) (cell? : Instr → σ → Option Int) (slots : Nat)
    (start s : σ) : Prop where
  /-- The lines that load from a slot or store to it get at the cell of the slot and at no other. -/
  cells : ∃ cell : Nat → Int, Cleared (t.memory s) (t.sp s) (frameSize slots) slots cell ∧
    ∀ step (k : Nat), step.op.slotUse? = some (.access k) →
      (t.expand step).filterMap (Line.cell? cell? s) = [cell k]
  /-- The frame is below the registers that are saved, unless its size has more than 32 bits. -/
  below : frameSize slots < 0x100000000 → ∀ a ∈ t.saved start, t.sp s + frameSize slots ≤ a

/-- Wherever the prologue of a function stands, running it sets the frame of the function up. -/
def Platform.Enters (t : Platform Instr σ ο) (cell? : Instr → σ → Option Int) (slots : Nat) : Prop :=
  ∀ entry lines pos start, Placed lines pos (t.expand ⟨.prologue entry slots, []⟩) →
    ∃ s, t.SetUp cell? slots start s ∧ Reaches (stepLine t.exec lines) ⟨pos, start⟩
      ⟨pos + (t.expand ⟨.prologue entry slots, []⟩).length, s⟩

/-- The instructions of a prologue stand behind its label. -/
theorem Platform.enters_of_run {t : Platform Instr σ ο} {cell? : Instr → σ → Option Int}
    {slots : Nat} (is : List Instr) (hexpand : ∀ entry, t.expand ⟨.prologue entry slots, []⟩ =
      .label (.named entry) :: is.map .instr)
    (hrun : ∀ start, ∃ s, runStraight t.exec is start = some s ∧ t.SetUp cell? slots start s) :
    t.Enters cell? slots := by
  intro entry lines pos start hplaced
  obtain ⟨s, hs, hset⟩ := hrun start
  rw [hexpand] at hplaced ⊢
  have hlabel : stepLine t.exec lines ⟨pos, start⟩ = .go ⟨pos + 1, start⟩ := step_label hplaced.head
  have hreaches := (Advances.of_step hlabel).reaches.trans (reaches_straight hplaced.tail hs)
  refine ⟨s, hset, ?_⟩
  rwa [List.length_cons, List.length_map, Nat.add_comm is.length, ← Nat.add_assoc]

end Platforms

namespace Arm64

/-- The cell that an instruction loads from or stores to, by its distance from a register. -/
def Instr.cell? (i : Instr) (s : State) : Option Int :=
  match i with
  | load _ base offset | store _ base offset => some (s.reg base + offset)
  | _ => none

theorem enters (slots : Nat) : platform.Enters Instr.cell? slots := by
  refine Platform.enters_of_run (entering slots) (fun _ => rfl) fun start => ?_
  let f : Frame := frameFrom (start.reg .sp - 32 - low (frameSize slots)) slots
  have hslot : ∀ k : Nat, start.reg .sp - 32 - low (frameSize slots) + (k * 8 : Nat) = f.slot k := by
    intro k
    show _ = _ + 8 * (k : Int)
    omega
  obtain ⟨s, hrun, hmemory, hsp, hbase, -⟩ := run_prologue start slots hslot
  refine ⟨s, hrun, ⟨f.slot, ?_, ?_⟩, ?_⟩
  · have hclear : ∀ k < slots, s.memory (f.slot k) = some (cell none) := by
      intro k hk
      rw [hmemory]
      exact f.clear_slot _ (Nat.le_refl _) hk
    have hlimit : f.limit ≤ f.base + frameSize slots := by
      have hsize : 8 * (slots : Int) ≤ frameSize slots := by
        unfold frameSize
        omega
      exact Int.add_le_add_left hsize _
    have hcleared := f.cleared hclear hlimit
    rwa [show f.base = platform.sp s from hsp.symm] at hcleared
  · rintro ⟨op, scratch⟩ k hop
    have hcell : s.reg .r19 + (k : Int) * 8 = f.slot k := by
      rw [hbase, hsp, ← hslot k, Int.natCast_mul]
      rfl
    cases op with
    | loadVar slot | storeVar slot =>
      cases hop
      exact congrArg (fun a => [a]) hcell
    | _ => cases hop
  · intro hsize
    have hlow := low_of_lt (frameSize_nonneg slots) hsize
    show ∀ a ∈ [start.reg .sp - 32, start.reg .sp - 16, start.reg .sp - 8],
      s.reg .sp + frameSize slots ≤ a
    rw [hsp, hlow]
    simp only [List.mem_cons, List.not_mem_nil, or_false, forall_eq_or_imp, forall_eq]
    omega

end Arm64

namespace X86

/-- The cell that an instruction loads from or stores to, by its distance from a register. -/
def Instr.cell? (i : Instr) (s : State) : Option Int :=
  match i with
  | load offset base _ | store _ offset base | storeImm _ offset base => some (s.reg base + offset)
  | _ => none

theorem enters (slots : Nat) : platform.Enters Instr.cell? slots := by
  refine Platform.enters_of_run (entering slots) (fun _ => rfl) fun start => ?_
  obtain ⟨s, hrun, hR⟩ := run_entering start slots
  let f : Frame := frame (start.reg .sp) slots
  have hsp : s.reg .sp = f.base := by
    rw [hR.sp]
    exact f.top_nil
  refine ⟨s, hrun, ⟨f.slot, ?_, ?_⟩, ?_⟩
  · have hclear : ∀ k < slots, s.memory (f.slot k) = some (cell none) := fun k hk =>
      (hR.holds.slots k none (List.getElem?_replicate_of_lt hk)).2
    have hlimit : f.limit ≤ f.base + frameSize slots := by
      show start.reg .sp - 8 ≤ start.reg .sp - 8 - frameSize slots + frameSize slots
      omega
    have hcleared := f.cleared hclear hlimit
    rwa [show f.base = platform.sp s from hsp.symm] at hcleared
  · rintro ⟨op, scratch⟩ k hop
    have hcell : s.reg .bp + slotOffset k = f.slot k := by
      rw [hR.framePointer]
      rfl
    cases op with
    | loadVar slot | storeVar slot =>
      cases hop
      exact congrArg (fun a => [a]) hcell
    | _ => cases hop
  · intro _
    show ∀ a ∈ [start.reg .sp - 8], s.reg .sp + frameSize slots ≤ a
    simp only [List.mem_singleton, forall_eq]
    rw [hsp]
    show start.reg .sp - 8 - frameSize slots + frameSize slots ≤ _
    omega

end X86

end Assembly

/-! ## Programs -/

/-- The slots of a program are those that its code uses and that its prologue lays out. -/
structure Program.SlotsAgree {Instr σ ο : Type} (t : Platform Instr σ ο)
    (cell? : Instr → σ → Option Int) (entry : String) (p : Program) : Prop where
  /-- A name has a slot just if it occurs. -/
  named : ∀ name, name ∈ p.slots ↔ Mentions p.parts name
  /-- The slots of the names are numbered from zero, without gaps and none twice. -/
  numbered : p.slots.map (p.slots.idxOf ·) = List.range p.slots.length
  /-- The lookups of the code add no name. -/
  complete : p.lookups.foldl addNew p.slots = p.slots
  /-- One prologue for as many slots as there are names, and then the slots of the names that are
  looked up. -/
  emitted : ∃ e, Emitter.empty.emitProgram t.target entry p = .ok e ∧
    e.steps[2]? = some ⟨.prologue entry p.slots.length, []⟩ ∧
    usesOf e.steps = .reserve p.slots.length :: p.lookups.map (.access <| p.slots.idxOf ·) ∧
    ∀ slot, .access slot ∈ usesOf e.steps → ∃ k < p.slots.length, slot = (k : Nat)
  entered : t.Enters cell? p.slots.length

theorem Program.slotsAgree_of_enters {Instr σ ο : Type} {t : Platform Instr σ ο}
    {cell? : Instr → σ → Option Int} (henters : ∀ slots, t.Enters cell? slots) (entry : String)
    {p : Program} (h : p.Each Expr.WellFormed) : p.SlotsAgree t cell? entry where
  named _ := mem_slots
  numbered := p.map_idxOf_slots
  complete := foldl_addNew_of_subset p.lookups_subset
  emitted := by
    obtain ⟨body, e, he, hsteps, huses⟩ := emitProgram_uses t.target entry h
    refine ⟨e, he, ?_, huses, fun slot hslot => ?_⟩
    · rw [hsteps]
      rfl
    · rw [huses] at hslot
      obtain hslot | hslot := List.mem_cons.1 hslot
      · cases hslot
      · obtain ⟨name, hname, heq⟩ := List.mem_map.1 hslot
        cases heq
        exact ⟨_, List.idxOf_lt_length_of_mem (p.lookups_subset hname), rfl⟩
  entered := henters _

end Imp32
