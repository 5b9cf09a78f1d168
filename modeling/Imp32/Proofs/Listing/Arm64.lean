import Imp32.Proofs.Listing.Labelled
import Imp32.Proofs.Stack.Arm64

/-!
# Labels in AArch64 code

The instructions that jump are those with a mnemonic of a branch, and their goal is the last word
(`reads_instr`). An expansion jumps to the handler of a failure just if its operation may fail so
(`traps_expand`).
-/

namespace Imp32.Assembly.Arm64

/-! ## Instructions -/

theorem Reg.plain_x (r : Reg) : Plain r.x := by cases r <;> decide

theorem Reg.plain_w (r : Reg) : Plain r.w := by cases r <;> decide

theorem Cond.plain_text (cond : Cond) : Plain cond.text := by cases cond <;> decide

theorem Arith.plain_text (op : Arith) : Plain op.text := by cases op <;> decide

theorem Instr.plain_text {i : Instr} (h : ∀ l, i.goal? = some l → Plain l.text) :
    Plain i.text := by
  unfold text
  cases i with
  | jump l | jumpIf _ l | jumpIfZeroW _ l | jumpIfNonzeroX _ l | jumpIfBitW _ _ l =>
    have hl := h l rfl
    simp +decide only [plain_append, plain_toString, plain_nat, Reg.plain_x, Reg.plain_w,
      Cond.plain_text, hl, and_self]
  | _ =>
    simp +decide only [plain_append, plain_toString, plain_nat, plain_int, Reg.plain_x,
      Reg.plain_w, Cond.plain_text, Arith.plain_text, and_self]

/-- The mnemonics of branches are those of the instructions that jump. -/
theorem Instr.branchesBy_firstWord (i : Instr) :
    Target.arm64.branchesBy (firstWord ((Line.instr i).text Instr.text).toList) =
      i.goal?.isSome := by
  unfold Line.text text goal?
  cases i with
  | jumpIf cond l =>
    cases cond <;> simp [Cond.text, toString, firstWord, margin, Target.branchesBy]
  | arithW op dst a b =>
    cases op <;> simp [Arith.text, toString, firstWord, margin, Target.branchesBy]
  | _ => simp [toString, firstWord, margin, Target.branchesBy]

/-- The goal of a jump is its last operand. -/
theorem Instr.lastWord_text {i : Instr} {l : Label} (h : i.goal? = some l) (hl : l.Written) :
    lastWord ((Line.instr i).text Instr.text).toList = l.text.toList := by
  unfold Line.text text
  cases i with
  | jump l' | jumpIf _ l' | jumpIfZeroW _ l' | jumpIfNonzeroX _ l' | jumpIfBitW _ _ l' =>
    cases h
    dsimp only
    rw [← String.append_assoc]
    exact lastWord_append (by simp [toString, margin, List.getLast?_cons, List.getLast?_append]) hl
  | _ => cases h

theorem reads_instr {i : Instr} (h : ∀ l, i.goal? = some l → l.Written) :
    discipline.Reads (.instr i) :=
  .of_instr (Instr.plain_text fun l hl => plain_of_labelChars (h l hl)) i.branchesBy_firstWord
    fun l hl => Instr.lastWord_text hl (h l hl)

/-! ## Expansions -/

theorem traps_expand {slots : Nat} {op : Op} (hgiven : op.Given) (hinner : op.Inner slots)
    (n : Nat) : ((expand (op.step .arm64 n)).filterMap discipline.goalOf?).filter
      Label.isTrap = op.trapKinds.map Label.trap := by
  cases op with
  | pushImm m =>
    show ((expand ⟨.pushImm m, []⟩).filterMap discipline.goalOf?).filter Label.isTrap = []
    unfold expand moveBits
    dsimp only
    split <;> rfl
  | arith op => cases op <;> rfl
  | compare op => cases op <;> rfl
  | branch l | branchIfNotPositive l | label l =>
    obtain ⟨stem, -, k, rfl⟩ := hgiven
    rfl
  | textSection | global _ | prologue _ _ | epilogue | trap _ | comment _ => cases hinner
  | _ => rfl

/-- The instructions that enter a function do not jump. -/
theorem goal?_of_mem_entering {slots : Int} : ∀ i ∈ entering slots, i.goal? = none := by
  have hbits : ∀ i ∈ moveBits .r9 (bits (frameSize slots)), i.goal? = none := by
    unfold moveBits
    split <;> simp [Instr.goal?]
  have hreserve : ∀ i ∈ reserve (frameSize slots), i.goal? = none := by
    unfold reserve
    split
    · simp
    split
    · simp [Instr.goal?]
    · simpa [or_imp, forall_and, Instr.goal?] using hbits
  have hclear : ∀ i ∈ clearSlots slots, i.goal? = none := by
    unfold clearSlots
    split
    · simp
    · simp [Instr.goal?]
  simpa [entering, or_imp, forall_and, Instr.goal?] using ⟨hreserve, hclear⟩

theorem legible : discipline.Legible where
  instr := reads_instr
  traps := traps_expand
  textSection x hx := by
    simp only [platform, expand, List.mem_cons, List.not_mem_nil, or_false] at hx
    rcases hx with rfl | rfl <;> exact ⟨.of_directive (by decide) (by simp), rfl⟩
  global name := rfl
  prologue name slots := ⟨entering slots, rfl, goal?_of_mem_entering⟩
  epilogue := ⟨[.load .r19 .r29 (-16), .moveX .sp .r29, .popPair .r29 .r30], .ret, rfl, by decide,
    rfl, by decide⟩
  abort code := ⟨.brk code, rfl, rfl, by
    show Target.arm64.abortsBy (firstWord (margin ++ s!"brk #{code}").toList) = true
    simp [toString, firstWord, margin, Target.abortsBy]⟩

end Imp32.Assembly.Arm64
