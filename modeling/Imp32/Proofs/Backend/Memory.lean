import Imp32.Proofs.Backend.Words
import Imp32.Proofs.StackMachine

/-!
# Memory and frames

Memory is read and written in cells of eight bytes. An address is any integer: the stack has as much
room below as it needs. A store destroys the cells that overlap with it, and reading a destroyed
cell has no meaning.

A frame says where a function keeps its slots and its operands, and `Frame.Holds` says that memory
holds those of the stack machine and, from the limit of the frame up, what it held on entry.
-/

namespace Imp32.Assembly

/-- What the cells at the addresses hold. -/
abbrev Memory := Int → Option Int

def Memory.store (m : Memory) (address value : Int) : Memory := fun a =>
  if a = address then some value
  else if address < a + 8 ∧ a < address + 8 then none
  else m a

namespace Memory

variable {m : Memory} {address value a : Int}

theorem store_self : m.store address value address = some value := if_pos rfl

theorem store_apart (h : a + 8 ≤ address ∨ address + 8 ≤ a) : m.store address value a = m a := by
  unfold store
  rw [if_neg (by omega), if_neg (by omega)]

end Memory

/-- What a slot holds: the value in the low half, or all bits. -/
def cell : Option Int → Int
  | some v => low v
  | none => 0xFFFFFFFFFFFFFFFF

theorem cell_bounds (c : Option Int) : 0 ≤ cell c ∧ cell c < 0x10000000000000000 := by
  cases c with
  | none => decide
  | some v =>
    have hlow := low_nonneg v
    have hhigh := low_lt v
    show 0 ≤ low v ∧ low v < 0x10000000000000000
    omega

/-- The high half of a cell tells whether it is assigned. -/
theorem cell_shiftRight (c : Option Int) :
    cell c >>> (32 : Nat) = if c = none then 0xFFFFFFFF else 0 := by
  rw [Int.shiftRight_eq_div_pow]
  cases c with
  | none => rfl
  | some v =>
    have hlow := low_nonneg v
    have hhigh := low_lt v
    show low v / 2 ^ 32 = 0
    omega

/-- The place of a function on the stack. The operands are below the base, in steps of 16 bytes. -/
structure Frame where
  base : Int
  /-- Where the frame ends. -/
  limit : Int
  slots : Nat
  slot : Nat → Int
  base_le : base ≤ limit
  within : ∀ k < slots, base ≤ slot k ∧ slot k + 8 ≤ limit
  apart : ∀ j < slots, ∀ k < slots, j ≠ k → slot j + 8 ≤ slot k ∨ slot k + 8 ≤ slot j

namespace Frame

def top (f : Frame) (operands : List Int) : Int := f.base - 16 * operands.length

@[simp] theorem top_nil (f : Frame) : f.top [] = f.base := by simp [top]

theorem top_cons (f : Frame) (v : Int) (operands : List Int) :
    f.top (v :: operands) = f.top operands - 16 := by
  unfold top
  rw [List.length_cons]
  omega

theorem top_le (f : Frame) (operands : List Int) : f.top operands ≤ f.base := by
  unfold top
  omega

/-- Memory holds the operands, the slots, and what it held on entry. -/
structure Holds (f : Frame) (entry m : Memory) (operands : List Int) (slots : List (Option Int)) :
    Prop where
  operands : ∀ (i : Nat) v, operands[i]? = some v →
    Word.InRange v ∧ m (f.top operands + 16 * i) = some (low v)
  length : slots.length = f.slots
  slots : ∀ (k : Nat) c, slots[k]? = some c →
    (∀ v, c = some v → Word.InRange v) ∧ m (f.slot k) = some (cell c)
  kept : ∀ a, f.limit ≤ a → m a = entry a

namespace Holds

variable {f : Frame} {entry m : Memory} {operands : List Int} {slots : List (Option Int)}
  {v w : Int} {k : Nat}

theorem head (h : f.Holds entry m (v :: operands) slots) :
    Word.InRange v ∧ m (f.top (v :: operands)) = some (low v) := by
  have h := h.operands 0 v rfl
  rwa [Int.natCast_zero, Int.mul_zero, Int.add_zero] at h

theorem second (h : f.Holds entry m (w :: v :: operands) slots) :
    Word.InRange v ∧ m (f.top (w :: v :: operands) + 16) = some (low v) :=
  h.operands 1 v rfl

theorem pop (h : f.Holds entry m (v :: operands) slots) : f.Holds entry m operands slots where
  operands i w hw := by
    obtain ⟨hrange, hm⟩ := h.operands (i + 1) w hw
    refine ⟨hrange, ?_⟩
    rw [top_cons] at hm
    rw [← hm]
    congr 1
    omega
  length := h.length
  slots := h.slots
  kept := h.kept

theorem push (h : f.Holds entry m operands slots) (hv : Word.InRange v) :
    f.Holds entry (m.store (f.top (v :: operands)) (low v)) (v :: operands) slots where
  operands i w hw := by
    cases i with
    | zero =>
      cases hw
      rw [Int.natCast_zero, Int.mul_zero, Int.add_zero]
      exact ⟨hv, Memory.store_self⟩
    | succ i =>
      obtain ⟨hrange, hm⟩ := h.operands i w hw
      refine ⟨hrange, ?_⟩
      rw [Memory.store_apart (.inr (by omega)), ← hm, top_cons]
      congr 1
      omega
  length := h.length
  slots k c hc := by
    obtain ⟨hrange, hm⟩ := h.slots k c hc
    have hk : k < f.slots := h.length ▸ (List.getElem?_eq_some_iff.1 hc).1
    have hlow := (f.within k hk).1
    have htop := f.top_le operands
    refine ⟨hrange, ?_⟩
    rw [Memory.store_apart (.inr (by rw [top_cons]; omega)), hm]
  kept a ha := by
    have htop := f.top_le operands
    have hbase := f.base_le
    rw [Memory.store_apart (.inr (by rw [top_cons]; omega)), h.kept a ha]

/-- The topmost operand is overwritten. -/
theorem storeTop (h : f.Holds entry m (w :: operands) slots) (hv : Word.InRange v) :
    f.Holds entry (m.store (f.top (w :: operands)) (low v)) (v :: operands) slots := by
  have hpush := h.pop.push hv
  rwa [top_cons, ← top_cons f w] at hpush

theorem storeSlot (h : f.Holds entry m operands slots) (hk : k < f.slots) (hv : Word.InRange v) :
    f.Holds entry (m.store (f.slot k) (low v)) operands (slots.set k (some v)) where
  operands i w hw := by
    obtain ⟨hrange, hm⟩ := h.operands i w hw
    have hi := (List.getElem?_eq_some_iff.1 hw).1
    have hlow := (f.within k hk).1
    refine ⟨hrange, ?_⟩
    rw [Memory.store_apart (.inl (by unfold top; omega)), hm]
  length := by rw [List.length_set, h.length]
  slots j c hc := by
    rw [List.getElem?_set] at hc
    by_cases hj : k = j
    · subst hj
      rw [if_pos rfl, if_pos (h.length ▸ hk)] at hc
      cases hc
      refine ⟨fun w hw => ?_, Memory.store_self⟩
      cases hw
      exact hv
    · rw [if_neg hj] at hc
      obtain ⟨hrange, hm⟩ := h.slots j c hc
      have hlt : j < f.slots := h.length ▸ (List.getElem?_eq_some_iff.1 hc).1
      refine ⟨hrange, ?_⟩
      rw [Memory.store_apart (f.apart j hlt k hk (Ne.symm hj)), hm]
  kept a ha := by
    have hhigh := (f.within k hk).2
    rw [Memory.store_apart (.inr (by omega)), h.kept a ha]

end Holds

/-! ## Entering a function -/

/-- Memory with the slots marked as unassigned, in order. -/
def clear (f : Frame) (m : Memory) (n : Nat) : Memory :=
  (List.range n).foldl (fun m k => m.store (f.slot k) (cell none)) m

theorem clear_succ (f : Frame) (m : Memory) (n : Nat) :
    f.clear m (n + 1) = (f.clear m n).store (f.slot n) (cell none) := by
  unfold clear
  rw [List.range_succ, List.foldl_append]
  rfl

theorem clear_slot (f : Frame) (m : Memory) {n : Nat} (hn : n ≤ f.slots) {k : Nat} (hk : k < n) :
    f.clear m n (f.slot k) = some (cell none) := by
  induction n with
  | zero => omega
  | succ n ih =>
    rw [clear_succ]
    by_cases hkn : k = n
    · subst hkn
      exact Memory.store_self
    · rw [Memory.store_apart (f.apart k (by omega) n (by omega) hkn)]
      exact ih (by omega) (by omega)

theorem clear_apart (f : Frame) (m : Memory) {n : Nat} (hn : n ≤ f.slots) {a : Int}
    (ha : f.limit ≤ a) : f.clear m n a = m a := by
  induction n with
  | zero => rfl
  | succ n ih =>
    have hhigh := (f.within n (by omega)).2
    rw [clear_succ, Memory.store_apart (.inr (by omega)), ih (by omega)]

theorem holds_clear (f : Frame) (m : Memory) :
    f.Holds m (f.clear m f.slots) [] (List.replicate f.slots none) where
  operands i v h := by cases h
  length := List.length_replicate
  slots k c h := by
    rw [List.getElem?_replicate] at h
    split at h
    · rename_i hk
      cases h
      exact ⟨nofun, f.clear_slot m (Nat.le_refl _) hk⟩
    · cases h
  kept a ha := f.clear_apart m (Nat.le_refl _) ha

end Frame

/-- A register holds a value, if it is known. -/
def Carries (value : Option Int) (register : Int) : Prop :=
  ∀ v, value = some v → Word.InRange v ∧ register = low v

end Imp32.Assembly
