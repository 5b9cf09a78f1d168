import Imp32.Proofs.Backend.Memory

/-!
# The cells of a frame

The slots of a frame hold words or are unassigned, and below the frame every operand is a word of
known origin (`Frame.Keeps`). Pushing an operand and assigning a slot keep that so: operands and
slots are in cells that do not overlap.
-/

namespace Imp32.Assembly

/-- A value in the low half of 64 bits. -/
def IsWord (n : Int) : Prop := 0 ≤ n ∧ n < 0x100000000

theorem isWord_low (n : Int) : IsWord (low n) := ⟨low_nonneg n, low_lt n⟩

/-- What a slot may hold: a word, or all bits. -/
def IsCell (n : Int) : Prop := n = 0xFFFFFFFFFFFFFFFF ∨ IsWord n

theorem IsCell.bounds {n : Int} (h : IsCell n) : 0 ≤ n ∧ n < 0x10000000000000000 := by
  rcases h with rfl | ⟨hlow, hhigh⟩
  · decide
  · omega

/-- A cell with nothing in its high half is a word. -/
theorem IsCell.isWord {n : Int} (h : IsCell n) (hhigh : n >>> (32 : Nat) = 0) : IsWord n := by
  rcases h with rfl | hword
  · exact absurd hhigh (by decide)
  · exact hword

/-- Which values at which addresses come from where they should. -/
abbrev Origin := Int → Int → Prop

/-- What has been of known origin and is still in memory, and what has been written. -/
def Origin.after (P : Origin) (written : Option (Int × Int)) (m : Memory) : Origin := fun a v =>
  m a = some v ∧ (P a v ∨ written = some (a, v))

namespace Frame

variable {f : Frame} {P Q : Origin} {n n' k : Nat} {m : Memory} {v : Int}

def operand (f : Frame) (i : Nat) : Int := f.base - 16 * (i + 1)

/-- The topmost operand is where the stack pointer is. -/
theorem operand_of_sp {f : Frame} {sp : Int} {d : Nat} (h : sp = f.base - 16 * ((d + 1 : Nat) : Int)) :
    sp = f.operand d := by
  unfold operand
  omega

/-- Operands are below the slots. -/
theorem operand_apart_slot (i : Nat) (hk : k < f.slots) : f.operand i + 8 ≤ f.slot k := by
  have hlow := (f.within k hk).1
  unfold operand
  omega

theorem operand_apart {i j : Nat} (h : i ≠ j) :
    f.operand i + 8 ≤ f.operand j ∨ f.operand j + 8 ≤ f.operand i := by
  unfold operand
  omega

/-- Memory has cells in the slots, and words of known origin as operands. -/
structure Keeps (f : Frame) (P : Origin) (n : Nat) (m : Memory) : Prop where
  slots : ∀ k < f.slots, ∃ v, m (f.slot k) = some v ∧ IsCell v
  operands : ∀ i < n, ∃ v, m (f.operand i) = some v ∧ IsWord v ∧ P (f.operand i) v

namespace Keeps

theorem isCell (h : f.Keeps P n m) (hk : k < f.slots) {a : Int} (ha : a = f.slot k)
    (hv : m a = some v) : IsCell v := by
  obtain ⟨w, hw, hcell⟩ := h.slots k hk
  rw [ha, hw] at hv
  cases hv
  exact hcell

theorem isWord (h : f.Keeps P n m) (hk : k < n) {a : Int} (ha : a = f.operand k)
    (hv : m a = some v) : IsWord v := by
  obtain ⟨w, hw, hword, -⟩ := h.operands k hk
  rw [ha, hw] at hv
  cases hv
  exact hword

theorem fewer (h : f.Keeps P n m) (hn : n' ≤ n) : f.Keeps P n' m :=
  ⟨h.slots, fun i hi => h.operands i (by omega)⟩

theorem imp (h : f.Keeps P n m) (hPQ : ∀ a v, P a v → Q a v) : f.Keeps Q n m := by
  refine ⟨h.slots, fun i hi => ?_⟩
  obtain ⟨v, hv, hword, hP⟩ := h.operands i hi
  exact ⟨v, hv, hword, hPQ _ v hP⟩

/-- Memory as it was keeps what is in it. -/
theorem after (h : f.Keeps P n m) (written : Option (Int × Int)) :
    f.Keeps (P.after written m) n m := by
  refine ⟨h.slots, fun i hi => ?_⟩
  obtain ⟨v, hv, hword, hP⟩ := h.operands i hi
  exact ⟨v, hv, hword, hv, .inl hP⟩

theorem push (h : f.Keeps P n m) (hv : IsWord v) :
    f.Keeps (P.after (some (f.operand n, v)) (m.store (f.operand n) v)) (n + 1)
      (m.store (f.operand n) v) where
  slots k hk := by
    obtain ⟨w, hw, hcell⟩ := h.slots k hk
    have hapart := f.operand_apart_slot n hk
    exact ⟨w, by rw [Memory.store_apart (.inr hapart), hw], hcell⟩
  operands i hi := by
    by_cases hin : i = n
    · subst hin
      exact ⟨v, Memory.store_self, hv, Memory.store_self, .inr rfl⟩
    · obtain ⟨w, hw, hword, hP⟩ := h.operands i (by omega)
      have hkept : m.store (f.operand n) v (f.operand i) = some w := by
        rw [Memory.store_apart (operand_apart hin), hw]
      exact ⟨w, hkept, hword, hkept, .inl hP⟩

theorem storeSlot (h : f.Keeps P n m) (hk : k < f.slots) (hv : IsWord v)
    (written : Option (Int × Int)) :
    f.Keeps (P.after written (m.store (f.slot k) v)) n (m.store (f.slot k) v) where
  slots j hj := by
    by_cases hjk : j = k
    · subst hjk
      exact ⟨v, Memory.store_self, .inr hv⟩
    · obtain ⟨w, hw, hcell⟩ := h.slots j hj
      exact ⟨w, by rw [Memory.store_apart (f.apart j hj k hk hjk), hw], hcell⟩
  operands i hi := by
    obtain ⟨w, hw, hword, hP⟩ := h.operands i hi
    have hkept : m.store (f.slot k) v (f.operand i) = some w := by
      rw [Memory.store_apart (.inl (f.operand_apart_slot i hk)), hw]
    exact ⟨w, hkept, hword, hkept, .inl hP⟩

end Keeps

/-- With all slots unassigned there are no operands. -/
theorem keeps_clear (f : Frame) (P : Origin) (m : Memory) : f.Keeps P 0 (f.clear m f.slots) :=
  ⟨fun _ hk => ⟨_, f.clear_slot m (Nat.le_refl _) hk, .inl rfl⟩, nofun⟩

end Frame

end Imp32.Assembly
