import Imp32.Proofs.Listing.Arm64
import Mathlib.Data.List.Perm.Subperm

/-!
# Which AArch64 instructions have an encoding

An instruction has four bytes. Its operands have to fit into them, and so does the distance to the
label that it branches to: a test of a bit leads 32 KiB far, another conditional branch 1 MiB
(`Instr.reach?`).

All operands of a program fit but for the offsets of slots behind the first 4096. A listing that is
shorter than the reach of its branches has them all in reach. Handlers are the last lines of a
listing, so that a branch to a handler is in reach just if the listing does not go on behind it for
longer than it reaches, up to the few handlers that follow (`Encodes.handlers`).
-/

namespace Imp32.Assembly

/-! ## Counting instructions -/

def Line.isInstr {Instr : Type} : Line Instr → Bool
  | .instr _ => true
  | _ => false

def instructions {Instr : Type} (lines : List (Line Instr)) : Nat := lines.countP Line.isInstr

section Counting

variable {Instr : Type} {lines a b : List (Line Instr)} {k k' : Nat}

@[simp] theorem instructions_instr (i : Instr) (lines : List (Line Instr)) :
    instructions (.instr i :: lines) = instructions lines + 1 :=
  List.countP_cons_of_pos rfl

@[simp] theorem instructions_label (l : Label) (lines : List (Line Instr)) :
    instructions (.label l :: lines) = instructions lines :=
  List.countP_cons_of_neg Bool.false_ne_true

@[simp] theorem instructions_append : instructions (a ++ b) = instructions a + instructions b :=
  List.countP_append

theorem instructions_take_add_drop (lines : List (Line Instr)) (k : Nat) :
    instructions (lines.take k) + instructions (lines.drop k) = instructions lines := by
  rw [← instructions_append, List.take_append_drop]

theorem instructions_drop_le (h : k ≤ k') :
    instructions (lines.drop k') ≤ instructions (lines.drop k) :=
  (List.drop_sublist_drop_left lines h).countP_le

end Counting

namespace Arm64

/-! ## Reach -/

/-- The label that a conditional branch leads to, and how many bytes far it may be. -/
def Instr.reach? : Instr → Option (Label × Int)
  | jumpIfBitW _ _ l => some (l, 0x8000)
  | jumpIfZeroW _ l | jumpIfNonzeroX _ l | jumpIf _ l => some (l, 0x100000)
  | _ => none

def address (lines : List (Line Instr)) (k : Nat) : Int := 4 * (instructions (lines.take k) : Int)

/-- A conditional branch on the line has the label that it leads to in its reach. -/
def InReach (lines : List (Line Instr)) (k : Nat) : Prop :=
  ∀ i l reach, lines[k]? = some (.instr i) → i.reach? = some (l, reach) →
    ∃ k', resolve lines l = some k' ∧ -reach ≤ address lines k' - address lines k ∧
      address lines k' - address lines k < reach

/-- Which instructions of a listing have an encoding, in a function with slots. -/
structure Encodes (lines : List (Line Instr)) (slots : Nat) : Prop where
  /-- Operands fit, but for the offsets of slots behind the first 4096. -/
  operands : ∀ i, .instr i ∈ lines → i.encodable = true ∨ i.TooFar slots
  operands_iff : (∀ i, .instr i ∈ lines → i.encodable = true) ↔ slots ≤ 4096
  lands : ∀ i l reach, .instr i ∈ lines → i.reach? = some (l, reach) →
    ∃ k, resolve lines l = some k ∧ lines[k]? = some (.label l)
  /-- In a listing that is shorter than it reaches, a branch is in reach. -/
  short : ∀ k i l reach, lines[k]? = some (.instr i) → i.reach? = some (l, reach) →
    4 * (instructions lines : Int) < reach → InReach lines k
  /-- From the handler of a failure on, there are up to three instructions. A branch to it is in reach
  just if those behind the branch and in front of the handler are fewer than it reaches. -/
  handlers : ∀ kind, ∃ last : Nat, 1 ≤ last ∧ last ≤ 3 ∧ ∀ k i reach,
    lines[k]? = some (.instr i) → i.reach? = some (.trap kind, reach) →
      (InReach lines k ↔ 4 * ((instructions (lines.drop k) : Int) - last) < reach)

section Reach

variable {lines : List (Line Instr)} {k k' : Nat} {i : Instr} {l : Label} {reach : Int}

theorem goal?_of_reach? (h : i.reach? = some (l, reach)) : i.goal? = some l ∧ 0x8000 ≤ reach := by
  cases i with
  | jumpIf _ _ | jumpIfZeroW _ _ | jumpIfNonzeroX _ _ | jumpIfBitW _ _ _ =>
    cases h
    exact ⟨rfl, by decide⟩
  | _ => cases h

theorem address_add_drop (lines : List (Line Instr)) (k : Nat) :
    address lines k + 4 * (instructions (lines.drop k) : Int) = 4 * (instructions lines : Int) := by
  have htotal := instructions_take_add_drop lines k
  unfold address
  omega

theorem inReach_iff (hi : lines[k]? = some (.instr i)) (hreach : i.reach? = some (l, reach))
    (hl : resolve lines l = some k') : InReach lines k ↔
      -reach ≤ address lines k' - address lines k ∧ address lines k' - address lines k < reach := by
  constructor
  · intro h
    obtain ⟨k₁, hk₁, hrange⟩ := h i l reach hi hreach
    cases hl.symm.trans hk₁
    exact hrange
  · intro h i' l' reach' hi' hreach'
    cases hi.symm.trans hi'
    cases hreach.symm.trans hreach'
    exact ⟨k', hl, h⟩

/-- No distance in a listing is longer than the listing. -/
theorem inReach_of_short (hi : lines[k]? = some (.instr i)) (hreach : i.reach? = some (l, reach))
    (hl : resolve lines l = some k') (hshort : 4 * (instructions lines : Int) < reach) :
    InReach lines k := by
  have hfrom := address_add_drop lines k
  have hto := address_add_drop lines k'
  refine (inReach_iff hi hreach hl).2 ?_
  unfold address at *
  omega

/-- Forwards, the distance is that of the instructions in between. -/
theorem inReach_iff_of_le (hi : lines[k]? = some (.instr i)) (hreach : i.reach? = some (l, reach))
    (hl : resolve lines l = some k') (hle : k ≤ k') : InReach lines k ↔
      4 * ((instructions (lines.drop k) : Int) - instructions (lines.drop k')) < reach := by
  have hfrom := address_add_drop lines k
  have hto := address_add_drop lines k'
  have hdrop : instructions (lines.drop k') ≤ instructions (lines.drop k) := instructions_drop_le hle
  have hpos := (goal?_of_reach? hreach).2
  rw [inReach_iff hi hreach hl]
  omega

/-- All branches of a listing with less than 32 KiB are in reach. -/
theorem Encodes.inReach {slots : Nat} (h : Encodes lines slots)
    (hshort : 4 * (instructions lines : Int) < 0x8000) (k : Nat) : InReach lines k := by
  intro i l reach hi hreach
  have hlong := (goal?_of_reach? hreach).2
  exact h.short k i l reach hi hreach (by omega) i l reach hi hreach

end Reach

/-! ## Handlers -/

def handlerLines (kinds : List String) : List (Line Instr) :=
  ((Emitter.handlers kinds).1.map (⟨·, []⟩) : List Step).flatMap expand

section Handlers

variable {kinds : List String}

theorem handlerLines_cons {kind : String} {code : Int} (h : trapCode? kind = some code) :
    handlerLines (kind :: kinds) =
      .label (.trap kind) :: .instr (.brk code) :: handlerLines kinds := by
  unfold handlerLines
  rw [Emitter.handlers_cons h]
  rfl

variable (hcodes : ∀ kind ∈ kinds, ∃ code, trapCode? kind = some code)

include hcodes

theorem instructions_handlerLines : instructions (handlerLines kinds) = kinds.length := by
  induction kinds with
  | nil => rfl
  | cons kind kinds ih =>
    obtain ⟨code, hcode⟩ := hcodes kind List.mem_cons_self
    rw [handlerLines_cons hcode, instructions_label, instructions_instr,
      ih fun k hk => hcodes k (List.mem_cons_of_mem kind hk), List.length_cons]

/-- From its label on, a handler has its own instruction and those of the handlers behind it. -/
theorem exists_handler {kind : String} (h : kind ∈ kinds) : ∃ j,
    (handlerLines kinds)[j]? = some (.label (.trap kind)) ∧
      1 ≤ instructions ((handlerLines kinds).drop j) := by
  induction kinds with
  | nil => cases h
  | cons kind' kinds ih =>
    obtain ⟨code, hcode⟩ := hcodes kind' List.mem_cons_self
    rw [handlerLines_cons hcode]
    rcases List.mem_cons.1 h with rfl | h
    · exact ⟨0, rfl, by simp⟩
    · obtain ⟨j, hj, hlast⟩ := ih (fun k hk => hcodes k (List.mem_cons_of_mem kind' hk)) h
      exact ⟨j + 2, hj, hlast⟩

end Handlers

/-- There are three kinds of failure. -/
theorem length_kindsOf_le (body : List Step) : (kindsOf body).length ≤ 3 := by
  have hnodup : (kindsOf body).Nodup := (Emitter.grows_foldl_addNew _ []).nodup .nil
  have hsubset : kindsOf body ⊆ ["div_zero", "unbound", "neg_exp"] := by
    intro kind hkind
    obtain ⟨code, hcode⟩ := kindsOf_coded body kind hkind
    unfold trapCode? at hcode
    split at hcode <;> simp_all
  exact (hnodup.subperm hsubset).length_le

/-! ## Listings -/

section Listings

variable {slots : Nat} {body : List Step}

def frontLines (slots : Nat) (body : List Step) : List (Line Instr) :=
  (Op.opening slots).flatMap (fun o => expand ⟨o, []⟩) ++ body.flatMap expand ++
    expand ⟨.epilogue, []⟩

theorem lines_wholeOf (slots : Nat) (body : List Step) :
    (wholeOf slots body).flatMap expand = frontLines slots body ++ handlerLines (kindsOf body) := by
  simp [wholeOf, frontLines, handlerLines, List.flatMap_map]

/-- What is branched to is branched to by the body. -/
theorem goals_wholeOf : ((wholeOf slots body).flatMap expand).filterMap discipline.goalOf? =
    (body.flatMap expand).filterMap discipline.goalOf? :=
  legible.goals_listing sound (by decide +kernel : IsEntryName defaultEntry)

/-- Branches stand in front of the handlers. -/
theorem lt_of_goal {k : Nat} {i : Instr} {l : Label}
    (hi : ((wholeOf slots body).flatMap expand)[k]? = some (.instr i)) (hgoal : i.goal? = some l) :
    k < (frontLines slots body).length := by
  refine Nat.not_le.1 fun hle => ?_
  rw [lines_wholeOf, List.getElem?_append_right hle] at hi
  have hmem : .instr i ∈ (Discipline.leaving body).flatMap expand := by
    rw [Discipline.leaving, List.flatMap_cons]
    exact List.mem_append_right _ (List.mem_of_getElem? hi)
  have hnone : i.goal? = none := (legible.reads_leaving sound hmem).2
  rw [hgoal] at hnone
  cases hnone

variable (hb : discipline.Body slots body)

include hb

theorem distinct_lines : Distinct ((wholeOf slots body).flatMap expand) := by
  obtain ⟨n, hemitted⟩ := hb.emitted
  have hformed : ∀ step ∈ wholeOf slots body, ∃ k, step = step.op.step .arm64 k :=
    formed_listingOf defaultEntry hemitted
  exact (expands hformed).distinct (distinct_wholeOf hemitted)

theorem lands_wholeOf {i : Instr} {l : Label}
    (hi : .instr i ∈ (wholeOf slots body).flatMap expand) (hgoal : i.goal? = some l) :
    ∃ k, resolve ((wholeOf slots body).flatMap expand) l = some k ∧
      ((wholeOf slots body).flatMap expand)[k]? = some (.label l) := by
  have hmem : l ∈ ((wholeOf slots body).flatMap expand).filterMap discipline.goalOf? :=
    List.mem_filterMap.2 ⟨_, hi, hgoal⟩
  rw [goals_wholeOf] at hmem
  have hlabel : l ∈ ((wholeOf slots body).flatMap expand).filterMap Line.label? := by
    have hlabels : ((wholeOf slots body).flatMap expand).filterMap Line.label? = _ :=
      hb.labels_listing sound
    rw [hlabels]
    refine List.mem_cons_of_mem _ (List.mem_append.2 ?_)
    rcases hb.goal_cases sound legible hmem with ⟨kind, hkind, rfl⟩ | hl
    · exact .inr (List.mem_map_of_mem hkind)
    · exact .inl hl
  obtain ⟨x, hx, hxl⟩ := List.mem_filterMap.1 hlabel
  obtain ⟨k, hk⟩ := List.getElem?_of_mem hx
  have hline : ((wholeOf slots body).flatMap expand)[k]? = some (.label l) := by
    cases x with
    | label l' =>
      cases hxl
      exact hk
    | _ => cases hxl
  exact ⟨k, resolve_of_distinct (distinct_lines hb) hline, hline⟩

theorem handlers_wholeOf (kind : String) : ∃ last : Nat, 1 ≤ last ∧ last ≤ 3 ∧ ∀ k i reach,
    ((wholeOf slots body).flatMap expand)[k]? = some (.instr i) →
      i.reach? = some (.trap kind, reach) → (InReach ((wholeOf slots body).flatMap expand) k ↔
        4 * ((instructions (((wholeOf slots body).flatMap expand).drop k) : Int) - last) < reach) := by
  by_cases hkind : kind ∈ kindsOf body
  · have hcodes := kindsOf_coded body
    obtain ⟨j, hj, hlast⟩ := exists_handler hcodes hkind
    have hthree : instructions ((handlerLines (kindsOf body)).drop j) ≤ 3 := by
      have hsplit := instructions_take_add_drop (handlerLines (kindsOf body)) j
      have hlength := length_kindsOf_le body
      rw [instructions_handlerLines hcodes] at hsplit
      omega
    refine ⟨_, hlast, hthree, fun k i reach hi hreach => ?_⟩
    have hlt := lt_of_goal hi (goal?_of_reach? hreach).1
    have hlabel : ((wholeOf slots body).flatMap expand)[(frontLines slots body).length + j]? =
        some (.label (.trap kind)) := by
      rw [lines_wholeOf, List.getElem?_append_right (Nat.le_add_right _ _), Nat.add_sub_cancel_left]
      exact hj
    have hresolve := resolve_of_distinct (distinct_lines hb) hlabel
    rw [inReach_iff_of_le hi hreach hresolve (by omega)]
    have hbehind : ((wholeOf slots body).flatMap expand).drop ((frontLines slots body).length + j) =
        (handlerLines (kindsOf body)).drop j := by
      rw [lines_wholeOf, List.drop_append, List.drop_eq_nil_of_le (Nat.le_add_right _ _),
        Nat.add_sub_cancel_left]
      rfl
    rw [hbehind]
  · refine ⟨1, by decide, by decide, fun k i reach hi hreach => absurd ?_ hkind⟩
    rw [← hb.mem_goals_trap legible]
    have hmem : .trap kind ∈ ((wholeOf slots body).flatMap expand).filterMap discipline.goalOf? :=
      List.mem_filterMap.2 ⟨_, List.mem_of_getElem? hi, (goal?_of_reach? hreach).1⟩
    rwa [goals_wholeOf] at hmem

end Listings

/-- Storing to the first slot that is too far is part of the prologue. -/
theorem not_encodable_of_slots {p : Program} {steps : List Step} (h : Assembled .arm64 p steps)
    (hslots : 4096 < p.slots.length) :
    ∃ i, .instr i ∈ steps.flatMap expand ∧ i.encodable ≠ true := by
  obtain ⟨entry, -, hplaced, -⟩ := exists_entry h (expands h.formed) (entering p.slots.length) rfl
  obtain ⟨before, rest, hsplit, -⟩ := entering_split hslots
  obtain ⟨back, hback⟩ := hplaced
  refine ⟨_, ?_, mt (encodable_store_iff 4096).1 (Nat.lt_irrefl _)⟩
  refine List.mem_of_mem_drop (i := entry) ?_
  rw [← hback, hsplit]
  simp

/-- The listing of a program, with its body. -/
theorem encodes_wholeOf {p : Program} {body : List Step} {n : Nat} (hp : p.Proper)
    (hbody : Compile.body .arm64 p.isEmpty (statementsCode .arm64 p.slots p) 0 = .ok body n) :
    Encodes ((wholeOf p.slots.length body).flatMap expand) p.slots.length := by
  obtain ⟨body', n', hbody', hemitted, hdoes⟩ := Program.exists_body .arm64 hp
  cases hbody.symm.trans hbody'
  have hassembled := assembled_wholeOf hemitted hdoes
  have hb : discipline.Body p.slots.length body := .of_code sound hbody hemitted
  have hoperands : ∀ i, .instr i ∈ (wholeOf p.slots.length body).flatMap expand →
      i.encodable = true ∨ i.TooFar p.slots.length :=
    forall_instr_of_assembled hassembled encodable_or_tooFar_opening
      fun _ => encodable_or_tooFar_expand
  constructor
  case operands => exact hoperands
  case operands_iff =>
    refine ⟨fun hall => Nat.not_lt.1 fun hslots => ?_, fun hslots i hi => ?_⟩
    · obtain ⟨i, hi, hnot⟩ := not_encodable_of_slots hassembled hslots
      exact hnot (hall i hi)
    · exact (hoperands i hi).resolve_right (not_tooFar hslots i)
  case lands => exact fun i l reach hi hreach => lands_wholeOf hb hi (goal?_of_reach? hreach).1
  case short =>
    intro k i l reach hi hreach hshort
    obtain ⟨k', hk', -⟩ := lands_wholeOf hb (List.mem_of_getElem? hi) (goal?_of_reach? hreach).1
    exact inReach_of_short hi hreach hk' hshort
  case handlers => exact handlers_wholeOf hb

end Arm64

end Imp32.Assembly

namespace Imp32

open Assembly

/-- The instructions of a program that was read from a text have an encoding just as far as it has at
most 4096 variables and its branches are in reach. -/
theorem Program.exists_encodes {source : String} {limit : Int} {p : Program}
    (h : Program.parse source limit = .ok p) : ∃ e,
      Emitter.empty.emitProgram .arm64 defaultEntry p = .ok e ∧
      p.compile .arm64 defaultEntry = .ok ("\n".intercalate
        ((e.steps.flatMap Arm64.expand).map (Line.text Arm64.Instr.text)) ++ "\n") ∧
      Arm64.Encodes (e.steps.flatMap Arm64.expand) p.slots.length := by
  obtain ⟨body, n, hbody, -⟩ := exists_body .arm64 (parse_proper h)
  obtain ⟨e, he, hsteps⟩ := emitProgram_eq defaultEntry hbody
  refine ⟨e, he, ?_, ?_⟩
  · rw [compile_eq he, Emitter.output, Emitter.lines, List.map_flatMap]
    rfl
  · rw [hsteps]
    exact Arm64.encodes_wholeOf (parse_proper h) hbody

end Imp32
