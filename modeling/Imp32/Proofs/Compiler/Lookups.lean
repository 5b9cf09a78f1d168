import Imp32.Proofs.Compiler.Linking
import Imp32.Proofs.Nodes

/-!
# Slots that are looked up

The tree of a program is walked twice. The first walk collects the names that get slots: all that
occur anywhere, once each (`Program.slots_eq`). The second one emits the code and looks the slots of
names up; it goes by the order of the code and leaves out what never runs (`Program.coded`). So its
names are among the collected ones (`Program.lookups_subset`), and the emitted operations use the
slots of just these names (`Program.emitProgram_uses`).
-/

namespace Imp32

open Assembly

/-! ## Collecting names -/

def Expr.name? : Expr → Option String
  | .var name _ => some name
  | _ => none

def namesOf (es : List Expr) : List String := es.filterMap Expr.name?

@[simp] theorem namesOf_append (es fs : List Expr) : namesOf (es ++ fs) = namesOf es ++ namesOf fs :=
  List.filterMap_append

theorem mem_namesOf {es : List Expr} {name : String} : name ∈ namesOf es ↔ Mentions es name := by
  unfold namesOf
  rw [List.mem_filterMap]
  constructor
  · rintro ⟨e, he, hname⟩
    cases e with
    | var x span =>
      cases hname
      exact ⟨span, he⟩
    | _ => cases hname
  · rintro ⟨span, hspan⟩
    exact ⟨_, hspan, rfl⟩

theorem Expr.collect_eq (e : Expr) (found : List String) :
    e.collect found = (namesOf e.parts).foldl addNew found := by
  induction e generalizing found with
  | value n span => rfl
  | var name span => rfl
  | neg a span ih => exact ih found
  | binary a op b span iha ihb =>
    show b.collect (a.collect found) = (namesOf (a.parts ++ b.parts)).foldl addNew found
    rw [iha, ihb, namesOf_append, List.foldl_append]

theorem collectClause_eq (e : Option Expr) (found : List String) :
    collectClause found e = (namesOf (clauseParts e)).foldl addNew found := by
  cases e with
  | none => rfl
  | some a => exact a.collect_eq found

mutual

theorem Stmt.collect_eq (s : Stmt) (found : List String) :
    s.collect found = (namesOf s.parts).foldl addNew found := by
  cases s with
  | expr e span => exact e.collect_eq found
  | block body span => exact collectAll_eq body found
  | ifThen cond body span | whileLoop cond body span =>
    simp only [Stmt.collect, Stmt.parts, namesOf_append, List.foldl_append, cond.collect_eq,
      collectAll_eq body]
  | forLoop init cond update body span =>
    simp only [Stmt.collect, Stmt.parts, namesOf_append, List.foldl_append, collectClause_eq,
      collectAll_eq body]

theorem collectAll_eq (p : Program) (found : List String) :
    collectAll found p = (namesOf p.parts).foldl addNew found := by
  cases p with
  | nil => rfl
  | cons s rest =>
    simp only [collectAll, Program.parts, namesOf_append, List.foldl_append, Stmt.collect_eq s,
      collectAll_eq rest]

end

namespace Program

/-- The slots are the names that occur, in the order of the text and once each. -/
theorem slots_eq (p : Program) : p.slots = (namesOf p.parts).foldl addNew [] :=
  collectAll_eq p []

theorem mem_slots {p : Program} {name : String} : name ∈ p.slots ↔ Mentions p.parts name := by
  rw [slots_eq, Emitter.mem_foldl_addNew, mem_namesOf]
  simp

/-- The slots are numbered without gaps. -/
theorem map_idxOf_slots (p : Program) :
    p.slots.map (p.slots.idxOf ·) = List.range p.slots.length := by
  refine List.ext_getElem (by simp) fun k hk _ => ?_
  rw [List.length_map] at hk
  rw [List.getElem_map, List.getElem_range]
  exact p.nodup_slots.idxOf_getElem k hk

end Program

/-! ## Looking names up -/

/-- The names that the code of an expression looks up, in the order of its operations. -/
def Expr.lookups : Expr → List String
  | .value _ _ => []
  | .var name _ => [name]
  | .neg a _ => a.lookups
  | .binary a op b _ =>
    if op = .assign then b.lookups ++ a.target.map Prod.fst else a.lookups ++ b.lookups

mutual

/-- The expressions of a statement that have code, in the order of the code. A loop without a
condition has none but its first clause. -/
def Stmt.coded : Stmt → List Expr
  | .expr e _ => [e]
  | .block body _ => Program.coded body
  | .ifThen cond body _ => cond :: Program.coded body
  | .whileLoop cond body _ => cond :: Program.coded body
  | .forLoop init none _ _ _ => init.toList
  | .forLoop init (some cond) update body _ =>
    init.toList ++ (cond :: (Program.coded body ++ update.toList))

/-- The expressions of a program that have code, in the order of the code. -/
def Program.coded : Program → List Expr
  | [] => []
  | s :: rest => s.coded ++ Program.coded rest

end

/-- The names that the code of a program looks up, in the order of its operations. -/
def Program.lookups (p : Program) : List String := p.coded.flatMap Expr.lookups

theorem Expr.lookups_subset (e : Expr) : e.lookups ⊆ namesOf e.parts := by
  induction e with
  | value n span => exact List.nil_subset _
  | var name span => exact List.Subset.refl _
  | neg a span ih => exact ih
  | binary a op b span iha ihb =>
    show (if op = .assign then _ else _) ⊆ namesOf (a.parts ++ b.parts)
    rw [namesOf_append]
    have htarget : a.target.map Prod.fst ⊆ namesOf a.parts := by
      cases a with
      | var name place => exact List.Subset.refl _
      | _ => exact List.nil_subset _
    split
    · exact List.append_subset.2 ⟨List.subset_append_of_subset_right _ ihb,
        List.subset_append_of_subset_left _ htarget⟩
    · exact List.append_subset.2 ⟨List.subset_append_of_subset_left _ iha,
        List.subset_append_of_subset_right _ ihb⟩

mutual

theorem Stmt.coded_subset (s : Stmt) : s.coded ⊆ s.expressions := by
  cases s with
  | expr e span => exact List.Subset.refl _
  | block body span => exact Program.coded_subset body
  | ifThen cond body span | whileLoop cond body span =>
    exact List.cons_subset_cons cond (Program.coded_subset body)
  | forLoop init cond update body span =>
    cases cond with
    | none => exact List.subset_append_left _ _
    | some cond =>
      have hbody : Program.coded body ⊆ Program.expressions body := Program.coded_subset body
      intro e he
      simp only [Stmt.coded, Stmt.expressions, List.mem_append, List.mem_cons, Option.toList_some]
        at he ⊢
      rcases he with he | he | he | he
      · exact .inl he
      · exact .inr (.inl (.inl he))
      · exact .inr (.inr (.inr (hbody he)))
      · exact .inr (.inr (.inl he))

theorem Program.coded_subset (p : Program) : p.coded ⊆ p.expressions := by
  cases p with
  | nil => exact List.nil_subset _
  | cons s rest =>
    exact List.append_subset.2
      ⟨List.subset_append_of_subset_left _ (Stmt.coded_subset s),
        List.subset_append_of_subset_right _ (Program.coded_subset rest)⟩

end

/-- Every name that is looked up has been collected. -/
theorem Program.lookups_subset (p : Program) : p.lookups ⊆ p.slots := by
  intro name hname
  obtain ⟨e, he, hlookup⟩ := List.mem_flatMap.1 hname
  obtain ⟨span, hspan⟩ := mem_namesOf.1 (e.lookups_subset hlookup)
  exact mem_slots.2 ⟨span, mem_parts_of_mem_expressions (p.coded_subset he) hspan⟩

theorem foldl_addNew_of_subset {names found : List String} (h : names ⊆ found) :
    names.foldl addNew found = found := by
  induction names with
  | nil => rfl
  | cons name names ih =>
    obtain ⟨hname, hnames⟩ := List.cons_subset.1 h
    have hnew : addNew found name = found := if_pos (List.contains_iff_mem.2 hname)
    rw [List.foldl_cons, hnew, ih hnames]

/-! ## Slots in use -/

/-- What an operation does with slots. -/
inductive SlotUse where
  /-- A function is entered with a number of slots. -/
  | reserve (slots : Int)
  /-- A slot is loaded from or stored to. -/
  | access (slot : Int)
  deriving DecidableEq, Repr

def Assembly.Op.slotUse? : Op → Option SlotUse
  | prologue _ slots => some (.reserve slots)
  | loadVar slot | storeVar slot => some (.access slot)
  | _ => none

def usesOf (steps : List Step) : List SlotUse := steps.filterMap fun step => step.op.slotUse?

@[simp] theorem usesOf_append (a b : List Step) : usesOf (a ++ b) = usesOf a ++ usesOf b :=
  List.filterMap_append

theorem usesOf_map (ops : List Op) : usesOf (ops.map (⟨·, []⟩)) = ops.filterMap Op.slotUse? :=
  List.filterMap_map

/-- The uses of slots in the code of expressions: those of the names that they look up. -/
def accesses (slots : List String) (es : List Expr) : List SlotUse :=
  (es.flatMap Expr.lookups).map fun name => .access (slots.idxOf name)

@[simp] theorem accesses_append (slots : List String) (es fs : List Expr) :
    accesses slots (es ++ fs) = accesses slots es ++ accesses slots fs := by
  unfold accesses
  rw [List.flatMap_append, List.map_append]

theorem accesses_cons (slots : List String) (e : Expr) (es : List Expr) :
    accesses slots (e :: es) = accesses slots [e] ++ accesses slots es :=
  accesses_append slots [e] es

namespace Compile

/-- Compiling succeeds, with code that uses these slots. -/
def Uses (code : Compile (List Step)) (uses : List SlotUse) : Prop :=
  ∀ n, ∃ steps n', code n = .ok steps n' ∧ usesOf steps = uses

namespace Uses

variable {code : Compile (List Step)} {f : List Step → Compile (List Step)}
  {uses uses' : List SlotUse}

theorem pure {steps : List Step} (h : usesOf steps = uses) : Uses (Pure.pure steps) uses :=
  fun n => ⟨steps, n, rfl, h⟩

theorem bind (h : Uses code uses) (hf : ∀ steps, usesOf steps = uses → Uses (f steps) uses') :
    Uses (code >>= f) uses' := by
  intro n
  obtain ⟨steps, n₁, hcode, huses⟩ := h n
  obtain ⟨steps', n₂, hrest, huses'⟩ := hf steps huses n₁
  exact ⟨steps', n₂, by rw [bind_of_ok hcode, hrest], huses'⟩

/-- Labels are given out before the code that uses them is compiled. -/
theorem newLabel {stem : String} {f : Label → Compile (List Step)} (h : ∀ l, Uses (f l) uses) :
    Uses (Compile.newLabel stem >>= f) uses := by
  intro n
  rw [bind_of_ok (newLabel_eq stem n)]
  exact h _ _

theorem op (target : Target) (o : Op) : Uses (Compile.op target o) o.slotUse?.toList := by
  intro n
  refine ⟨_, _, op_eq target o n, ?_⟩
  unfold usesOf
  rw [List.filterMap_cons, List.filterMap_nil, show (o.step target n).op = o from rfl]
  cases o.slotUse? <;> rfl

theorem ops (target : Target) (os : List Op) :
    Uses (Compile.ops target os) (os.filterMap Op.slotUse?) := by
  induction os with
  | nil => exact .pure rfl
  | cons o os ih =>
    refine (op target o).bind fun first hfirst => ih.bind fun rest hrest => .pure ?_
    rw [usesOf_append, hfirst, hrest, List.filterMap_cons]
    cases o.slotUse? <;> rfl

/-- Compiled code behind compiled code. -/
theorem append {first last : Compile (List Step)} {uses₁ uses₂ : List SlotUse}
    (h : Uses first uses₁) (h' : Uses last uses₂) (huses : uses₁ ++ uses₂ = uses) :
    Uses (do
      let x ← first
      let y ← last
      return x ++ y) uses := by
  refine h.bind fun x hx => h'.bind fun y hy => .pure ?_
  rw [usesOf_append, hx, hy, huses]

end Uses

end Compile

section Emitting

variable {target : Target} {slots : List String}

theorem slotUse?_operation (op : BinaryOp) : (Compile.operation op).slotUse? = none := by
  cases op <;> rfl

/-- The code of an expression uses the slots of the names that it looks up. -/
theorem Expr.code_uses {e : Expr} (h : e.WellFormed) :
    Compile.Uses (e.code target slots) (accesses slots [e]) := by
  induction e with
  | value n span => exact .op target _
  | var name span => exact .ops target _
  | neg a span ih => exact (ih h).append (.ops target _) (List.append_nil _)
  | binary a op b span iha ihb =>
    obtain ⟨hvar, ha, hb⟩ := h
    by_cases hop : op = .assign
    · obtain ⟨name, place, rfl⟩ := hvar hop
      subst hop
      refine (ihb hb).append (.ops target _) ?_
      simp only [accesses, Expr.lookups, if_true, List.flatMap_cons, List.flatMap_nil,
        List.append_nil, List.map_append]
      rfl
    · rw [Expr.code_binary hop]
      refine (iha ha).bind fun left hleft => (ihb hb).bind fun right hright =>
        (Compile.Uses.ops target _).bind fun last hlast => .pure ?_
      have happly : [.popOperands, Compile.operation op, .pushResult].filterMap Op.slotUse? = [] := by
        rw [List.filterMap_cons, List.filterMap_cons, slotUse?_operation]
        rfl
      rw [usesOf_append, usesOf_append, hleft, hright, hlast, happly]
      simp [accesses, Expr.lookups, hop]

theorem clause_uses {e : Option Expr} (h : ∀ a ∈ e, a.WellFormed) :
    Compile.Uses (Compile.clause target slots e) (accesses slots e.toList) := by
  cases e with
  | none => exact .pure rfl
  | some a => exact (a.code_uses (h a rfl)).append (.op target _) (List.append_nil _)

theorem test_uses {cond : Expr} (h : cond.WellFormed) (exit : Label) :
    Compile.Uses (Compile.test target slots cond exit) (accesses slots [cond]) :=
  (cond.code_uses h).append (.ops target _) (List.append_nil _)

theorem init_uses (target : Target) (slots : List String) {init : Option Expr}
    (h : ∀ a ∈ init, a.WellFormed) :
    Compile.Uses (match init with
      | some e => e.code target slots
      | none => Compile.op target (.pushImm 0)) (accesses slots init.toList) := by
  cases init with
  | none => exact .op target _
  | some a => exact a.code_uses (h a rfl)

theorem loop_uses (target : Target) {cond : Expr} {body : Compile (List Step)}
    {update : Option Expr} {es : List Expr} (hcond : cond.WellFormed)
    (hbody : Compile.Uses body (accesses slots es)) (hupdate : ∀ a ∈ update, a.WellFormed) :
    Compile.Uses (Compile.loop target slots cond body update)
      (accesses slots (cond :: (es ++ update.toList))) := by
  refine .newLabel fun head => .newLabel fun exit => (Compile.Uses.op target _).bind
    fun enter henter => (test_uses hcond exit).bind fun check hcheck => hbody.bind fun turn hturn =>
    (Compile.Uses.op target _).bind fun keep hkeep => (clause_uses hupdate).bind fun next hnext =>
    (Compile.Uses.ops target _).bind fun leave hleave => .pure ?_
  simp only [usesOf_append, henter, hcheck, hturn, hkeep, hnext, hleave]
  have hleave : [Op.branch head, .label exit, .popResult].filterMap Op.slotUse? = [] := rfl
  rw [hleave, accesses_cons slots cond (es ++ _), accesses_append]
  simp [Op.slotUse?]

theorem body_uses {p : Program} (h : Compile.Uses (statementsCode target slots p)
    (accesses slots p.coded)) :
    Compile.Uses (Compile.body target p.isEmpty (statementsCode target slots p))
      (accesses slots p.coded) := by
  cases p with
  | nil => exact .op target _
  | cons s rest => exact h

mutual

/-- The code of a statement uses the slots of the names that its expressions with code look up. -/
theorem Stmt.code_uses {s : Stmt} (h : s.Each Expr.WellFormed) :
    Compile.Uses (s.code target slots) (accesses slots s.coded) := by
  cases s with
  | expr e span => exact clause_uses (e := some e) (by rintro _ ⟨⟩; exact h)
  | block body span => exact body_uses (statementsCode_uses h)
  | ifThen cond body span =>
    refine .newLabel fun otherwise => .newLabel fun exit => (test_uses h.1 otherwise).bind
      fun check hcheck => (body_uses (statementsCode_uses h.2)).bind fun inner hinner =>
      (Compile.Uses.ops target _).bind fun leave hleave => .pure ?_
    simp only [usesOf_append, hcheck, hinner, hleave]
    rw [Stmt.coded, accesses_cons slots cond (Program.coded body)]
    exact List.append_nil _
  | whileLoop cond body span =>
    have hnone : ∀ a ∈ (none : Option Expr), a.WellFormed := nofun
    refine (Compile.Uses.op target _).append
      (loop_uses target h.1 (body_uses (statementsCode_uses h.2)) hnone) ?_
    rw [Option.toList_none, List.append_nil]
    rfl
  | forLoop init cond update body span =>
    obtain ⟨hinit, hcond, hupdate, hbody⟩ := h
    have hfirst := init_uses target slots hinit
    cases cond with
    | none =>
      have hzero := hfirst.append (.ops target [.popResult, .loadZero]) (List.append_nil _)
      cases init <;> exact hzero
    | some cond =>
      have hloop := hfirst.append (loop_uses target (hcond cond rfl)
        (body_uses (statementsCode_uses hbody)) hupdate) (accesses_append slots _ _).symm
      cases init <;> exact hloop

theorem statementsCode_uses {p : Program} (h : p.Each Expr.WellFormed) :
    Compile.Uses (statementsCode target slots p) (accesses slots p.coded) := by
  cases p with
  | nil => exact .pure rfl
  | cons s rest =>
    exact (Stmt.code_uses h.1).append (statementsCode_uses h.2) (accesses_append slots _ _).symm

end

end Emitting

/-! ## Emitting a program -/

theorem usesOf_handlers {kinds : List String}
    (h : ∀ kind ∈ kinds, ∃ code, trapCode? kind = some code) :
    usesOf ((Emitter.handlers kinds).1.map (⟨·, []⟩)) = [] := by
  rw [usesOf_map, List.filterMap_eq_nil_iff]
  intro o ho
  rcases Emitter.mem_handlers h ho with ⟨kind, -, rfl⟩ | ⟨kind, code, -, rfl⟩
  · rfl
  · rfl

/-- A program whose assignments are to variables is emitted. It reserves as many slots as it has
names, and its code uses the slots of the names that it looks up. -/
theorem Program.emitProgram_uses (target : Target) (entry : String) {p : Program}
    (h : p.Each Expr.WellFormed) : ∃ body e,
      Emitter.empty.emitProgram target entry p = .ok e ∧
      e.steps = listingOf entry p.slots.length body ∧
      usesOf e.steps = .reserve p.slots.length :: p.lookups.map fun name =>
        .access (p.slots.idxOf name) := by
  have hstatements : Compile.Uses (statementsCode target p.slots p) _ := statementsCode_uses h
  obtain ⟨body, n, hbody, huses⟩ := body_uses hstatements 0
  obtain ⟨e, he, hsteps⟩ := emitProgram_eq entry hbody
  refine ⟨body, e, he, hsteps, ?_⟩
  rw [hsteps, listingOf, usesOf_append, usesOf_append, usesOf_append, usesOf_map,
    usesOf_handlers (kindsOf_coded body), huses]
  show [SlotUse.reserve _] ++ _ ++ [] ++ [] = _
  rw [List.append_nil, List.append_nil]
  rfl

end Imp32
