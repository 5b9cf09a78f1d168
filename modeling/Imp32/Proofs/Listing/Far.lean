import Imp32.Proofs.Joining.Programs
import Imp32.Proofs.Listing.Reach

/-!
# A branch out of reach

The handlers stand behind the whole code of a program, so that a branch to one of them gets out of
reach in a program that is long enough. A power in front of statements that are just a zero reaches
its handler over 2726 of them, and over no more (`Program.power_inReach_iff`). Together with the bound
on the number of variables this says how far programs have an encoding (`Program.arm64_encodes`).
-/

namespace Imp32

open Assembly

/-- The statement is `1 ^ 1`. -/
def Stmt.isPower : Stmt → Bool
  | .expr (.binary (.value 1 _) .pow (.value 1 _) _) _ => true
  | _ => false

/-- The statement is `0`. -/
def Stmt.isZero : Stmt → Bool
  | .expr (.value 0 _) _ => true
  | _ => false

namespace Stmt

variable {s : Stmt}

theorem eq_of_isPower (h : s.isPower = true) : ∃ a b c d,
    s = .expr (.binary (.value 1 a) .pow (.value 1 b) c) d := by
  unfold isPower at h
  split at h
  · exact ⟨_, _, _, _, rfl⟩
  · cases h

theorem eq_of_isZero (h : s.isZero = true) : ∃ a b, s = .expr (.value 0 a) b := by
  unfold isZero at h
  split at h
  · exact ⟨_, _, rfl⟩
  · cases h

end Stmt

/-- A power, and a number of zeros behind it. -/
def Program.PowerAndZeros (p : Program) (n : Nat) : Prop :=
  ∃ first rest, p = first :: rest ∧ first.isPower = true ∧ rest.length = n ∧
    ∀ s ∈ rest, s.isZero = true

theorem Program.exists_powerAndZeros (n : Nat) :
    ∃ source p, Program.parse source 2 = .ok p ∧ p.PowerAndZeros n := by
  induction n with
  | zero =>
    have hpower : (Program.parse "1^1;" 2).toOption.map (·.map Stmt.isPower) = some [true] := by
      decide +kernel
    cases h : Program.parse "1^1;" 2 with
    | error e =>
      rw [h] at hpower
      cases hpower
    | ok p =>
      rw [h] at hpower
      obtain ⟨first, rest, rfl, hfirst, hrest⟩ := List.map_eq_cons_iff.1 (Option.some.inj hpower)
      obtain rfl := List.map_eq_nil_iff.1 hrest
      exact ⟨_, _, h, first, [], rfl, hfirst, rfl, List.forall_mem_nil _⟩
  | succ n ih =>
    obtain ⟨source, p, hp, first, rest, rfl, hfirst, hlength, hrest⟩ := ih
    have hzero : (Program.parse "0;" 2).toOption.map (·.map Stmt.isZero) = some [true] := by
      decide +kernel
    cases h : Program.parse "0;" 2 with
    | error e =>
      rw [h] at hzero
      cases hzero
    | ok q =>
      rw [h] at hzero
      obtain ⟨s, nothing, rfl, hs, hnothing⟩ := List.map_eq_cons_iff.1 (Option.some.inj hzero)
      obtain rfl := List.map_eq_nil_iff.1 hnothing
      obtain ⟨a, b, rfl⟩ := Stmt.eq_of_isZero hs
      obtain ⟨ts, hts, hread⟩ := Program.parse_eq_ok.1 hp
      obtain ⟨us, hus, hread'⟩ := Program.parse_eq_ok.1 h
      have htokens := tokens_append hts hus (endsBefore_of_ofTokens hread "0;".toList)
      refine ⟨source ++ "0;", _, Program.parse_eq_ok.2 ⟨_, htokens, ofTokens_append _ hread hread'⟩,
        first, _, List.cons_append, hfirst, by simp [hlength, shiftAll], fun s hs => ?_⟩
      rcases List.mem_append.1 hs with hs | hs
      · exact hrest s hs
      · rw [List.mem_singleton.1 hs]
        rfl

/-! ## Code -/

/-- The steps of a power of ones. -/
def powerSteps : List Step :=
  [⟨.pushImm 1, []⟩, ⟨.pushImm 1, []⟩, ⟨.popOperands, []⟩,
    ⟨.pow, [.fresh "pow_loop" 1, .fresh "pow_end" 2]⟩, ⟨.pushResult, []⟩, ⟨.popResult, []⟩]

/-- Three instructions for each zero, and no failure. -/
theorem zeros_code {rest : Program} (h : ∀ s ∈ rest, s.isZero = true) (slots : List String)
    (n : Nat) : ∃ steps, statementsCode .arm64 slots rest n = .ok steps n ∧
      (∀ step ∈ steps, step.op.trapKinds = []) ∧
      instructions (steps.flatMap Arm64.expand) = 3 * rest.length := by
  induction rest with
  | nil => exact ⟨[], rfl, List.forall_mem_nil _, rfl⟩
  | cons s rest ih =>
    obtain ⟨hs, hrest⟩ := List.forall_mem_cons.1 h
    obtain ⟨a, b, rfl⟩ := Stmt.eq_of_isZero hs
    obtain ⟨steps, hcode, htraps, hcount⟩ := ih hrest
    refine ⟨⟨.pushImm 0, []⟩ :: ⟨.popResult, []⟩ :: steps, ?_, ?_, ?_⟩
    · have hzero : (Stmt.expr (.value 0 a) b).code .arm64 slots n =
          .ok [⟨.pushImm 0, []⟩, ⟨.popResult, []⟩] n := rfl
      unfold statementsCode
      rw [bind_of_ok hzero, bind_of_ok hcode]
      rfl
    · simpa [Op.trapKinds] using htraps
    · have hzero : instructions (Arm64.expand ⟨.pushImm 0, []⟩) = 2 := rfl
      have hpop : instructions (Arm64.expand ⟨.popResult, []⟩) = 1 := rfl
      rw [List.flatMap_cons, List.flatMap_cons, instructions_append, instructions_append, hcount,
        hzero, hpop, List.length_cons]
      omega

/-- The lines of a power of ones, and those in front of it. -/
def powerLines : List (Line Arm64.Instr) :=
  (Op.opening 0).flatMap (fun o => Arm64.expand ⟨o, []⟩) ++ powerSteps.flatMap Arm64.expand

/-- The lines behind a program whose powers alone can fail. -/
def leavingLines : List (Line Arm64.Instr) :=
  Arm64.expand ⟨.epilogue, []⟩ ++ Arm64.handlerLines ["neg_exp"]

theorem lines_power {zeros : List Step} (h : ∀ step ∈ zeros, step.op.trapKinds = []) :
    (wholeOf 0 (powerSteps ++ zeros)).flatMap Arm64.expand =
      powerLines ++ (zeros.flatMap Arm64.expand ++ leavingLines) := by
  have hnone : zeros.flatMap (fun step => step.op.trapKinds) = [] := List.flatMap_eq_nil_iff.2 h
  have hkinds : kindsOf (powerSteps ++ zeros) = ["neg_exp"] := by
    rw [kindsOf, List.flatMap_append, hnone]
    rfl
  rw [Arm64.lines_wholeOf, hkinds]
  simp only [Arm64.frontLines, powerLines, leavingLines, List.flatMap_append, List.append_assoc]

theorem zeros_collect {rest : Program} (h : ∀ s ∈ rest, s.isZero = true) (found : List String) :
    collectAll found rest = found := by
  induction rest with
  | nil => rfl
  | cons s rest ih =>
    obtain ⟨hs, hrest⟩ := List.forall_mem_cons.1 h
    obtain ⟨a, b, rfl⟩ := Stmt.eq_of_isZero hs
    exact ih hrest

namespace Program

variable {p : Program} {n : Nat}

theorem PowerAndZeros.slots_eq (h : p.PowerAndZeros n) : p.slots = [] := by
  obtain ⟨first, rest, rfl, hfirst, -, hrest⟩ := h
  obtain ⟨a, b, c, d, rfl⟩ := Stmt.eq_of_isPower hfirst
  exact zeros_collect hrest []

/-- The code of the power, and three instructions for each zero. -/
theorem PowerAndZeros.body_eq (h : p.PowerAndZeros n) : ∃ zeros,
    Compile.body .arm64 p.isEmpty (statementsCode .arm64 p.slots p) 0 = .ok (powerSteps ++ zeros) 2 ∧
      (∀ step ∈ zeros, step.op.trapKinds = []) ∧
      instructions (zeros.flatMap Arm64.expand) = 3 * n := by
  rw [h.slots_eq]
  obtain ⟨first, rest, rfl, hfirst, rfl, hrest⟩ := h
  obtain ⟨a, b, c, d, rfl⟩ := Stmt.eq_of_isPower hfirst
  obtain ⟨zeros, hcode, htraps, hcount⟩ := zeros_code hrest [] 2
  refine ⟨zeros, ?_, htraps, hcount⟩
  have hpower : (Stmt.expr (.binary (.value 1 a) .pow (.value 1 b) c) d).code .arm64 [] 0 =
      .ok powerSteps 2 := rfl
  show statementsCode .arm64 [] (_ :: rest) 0 = _
  unfold statementsCode
  rw [bind_of_ok hpower, bind_of_ok hcode]
  rfl

/-- In the listing, three instructions for each zero stand in between. -/
theorem PowerAndZeros.lines_eq (hp : p.Proper) (h : p.PowerAndZeros n) : ∃ e zeros,
    Emitter.empty.emitProgram .arm64 defaultEntry p = .ok e ∧
      Arm64.Encodes (e.steps.flatMap Arm64.expand) 0 ∧
      e.steps.flatMap Arm64.expand = powerLines ++ (zeros ++ leavingLines) ∧
      instructions zeros = 3 * n := by
  obtain ⟨zeros, hbody, htraps, hcount⟩ := h.body_eq
  obtain ⟨e, he, hsteps⟩ := emitProgram_eq defaultEntry hbody
  have hencodes := Arm64.encodes_wholeOf hp hbody
  have hslots : p.slots.length = 0 := by
    rw [h.slots_eq]
    rfl
  rw [hslots] at hsteps hencodes
  refine ⟨e, zeros.flatMap Arm64.expand, he, ?_, ?_, hcount⟩
  · rw [hsteps]
    exact hencodes
  · rw [hsteps]
    exact lines_power htraps

/-- In front of any number of zeros, a power reaches its handler just if they are not more than
2726. -/
theorem power_inReach_iff (n : Nat) : ∃ source p e k,
    Program.parse source 2 = .ok p ∧ p.PowerAndZeros n ∧
      Emitter.empty.emitProgram .arm64 defaultEntry p = .ok e ∧
      (∀ i, .instr i ∈ e.steps.flatMap Arm64.expand → i.encodable = true) ∧
      (e.steps.flatMap Arm64.expand)[k]? = some (.instr (.jumpIfBitW .r1 31 (.trap "neg_exp"))) ∧
      (Arm64.InReach (e.steps.flatMap Arm64.expand) k ↔ n ≤ 2726) := by
  obtain ⟨source, p, hp, hshape⟩ := exists_powerAndZeros n
  obtain ⟨e, zeros, he, hencodes, hlines, hcount⟩ := hshape.lines_eq (parse_proper hp)
  have hbranch : (e.steps.flatMap Arm64.expand)[14]? =
      some (.instr (.jumpIfBitW .r1 31 (.trap "neg_exp"))) := by
    rw [hlines]
    rfl
  have hbehind : instructions ((e.steps.flatMap Arm64.expand).drop 14) = 3 * n + 14 := by
    have hlength : 14 ≤ powerLines.length := by decide
    have hpower : instructions (powerLines.drop 14) = 9 := rfl
    have hleaving : instructions leavingLines = 5 := rfl
    rw [hlines, List.drop_append_of_le_length hlength, instructions_append, instructions_append,
      hpower, hcount, hleaving]
    omega
  obtain ⟨last, hlast, hthree, hreach⟩ := hencodes.handlers "neg_exp"
  refine ⟨source, p, e, 14, hp, hshape, he, hencodes.operands_iff.2 (Nat.zero_le _), hbranch, ?_⟩
  rw [hreach 14 _ _ hbranch rfl, hbehind]
  omega

end Program

/-- The instructions of a program that was read from a text have an encoding just as far as it has at
most 4096 variables and its branches are in reach, and there are programs without variables where a
branch is not. -/
theorem Program.arm64_encodes {source : String} {limit : Int} {p : Program}
    (h : Program.parse source limit = .ok p) :
    (∃ e, Emitter.empty.emitProgram .arm64 defaultEntry p = .ok e ∧
      p.compile .arm64 defaultEntry = .ok ("\n".intercalate
        ((e.steps.flatMap Arm64.expand).map (Line.text Arm64.Instr.text)) ++ "\n") ∧
      Arm64.Encodes (e.steps.flatMap Arm64.expand) p.slots.length) ∧
    ∀ n : Nat, ∃ far q e k, Program.parse far 2 = .ok q ∧ q.PowerAndZeros n ∧
      Emitter.empty.emitProgram .arm64 defaultEntry q = .ok e ∧
      (∀ i, .instr i ∈ e.steps.flatMap Arm64.expand → i.encodable = true) ∧
      (e.steps.flatMap Arm64.expand)[k]? = some (.instr (.jumpIfBitW .r1 31 (.trap "neg_exp"))) ∧
      (Arm64.InReach (e.steps.flatMap Arm64.expand) k ↔ n ≤ 2726) :=
  ⟨Program.exists_encodes h, Program.power_inReach_iff⟩

/-- A power, a quotient and a variable, each with a branch to its handler. -/
theorem Program.arm64_encodes_handlers : ∃ (p : Program) (e : Emitter),
    Program.parse "2 ^ n / 3;" 9 = .ok p ∧
      Emitter.empty.emitProgram .arm64 defaultEntry p = .ok e ∧
      Arm64.Encodes (e.steps.flatMap Arm64.expand) p.slots.length ∧
      (∀ i, .instr i ∈ e.steps.flatMap Arm64.expand → i.encodable = true) ∧
      ∀ k, Arm64.InReach (e.steps.flatMap Arm64.expand) k := by
  have hread : (Program.parse "2 ^ n / 3;" 9).toOption.bind (fun p =>
      (Emitter.empty.emitProgram .arm64 defaultEntry p).toOption.map fun e =>
        (p.slots.length, instructions (e.steps.flatMap Arm64.expand))) = some (1, 38) := by
    decide +kernel
  cases h : Program.parse "2 ^ n / 3;" 9 with
  | error e =>
    rw [h] at hread
    cases hread
  | ok p =>
    obtain ⟨⟨e, he, -, hencodes⟩, -⟩ := Program.arm64_encodes h
    rw [h] at hread
    change (Emitter.empty.emitProgram .arm64 defaultEntry p).toOption.map _ = _ at hread
    rw [he] at hread
    obtain ⟨hslots, hinstructions⟩ := Prod.mk.inj (Option.some.inj hread)
    exact ⟨p, e, rfl, he, hencodes, hencodes.operands_iff.2 (by omega),
      hencodes.inReach (by rw [hinstructions]; decide)⟩

end Imp32
