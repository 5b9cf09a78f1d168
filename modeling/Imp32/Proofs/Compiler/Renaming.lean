import Imp32.Proofs.Compiler.Lookups
import Imp32.Proofs.SameTree
import Mathlib.Data.Set.Function

/-!
# Code under other names

The text that a program is compiled to shows neither the names of its variables nor its spans. If
the names are changed so that different ones stay different, and the spans in any way, the text is
the same on every target (`Program.names_unseen`). So whatever a variable is called, be it like a
register, a label or a directive, its name does not meet theirs.

`relabel` changes names and spans in one walk. Slots are numbered by first occurrence, so they go
along with the names (`Program.slots_relabel`), and the number of a name's slot, which is all that
the code takes of it, stays (`idxOf_map_of_injOn`).
-/

namespace Imp32

open Assembly

/-! ## Trees with other names and spans -/

/-- The expression with its names and its spans changed. -/
def Expr.relabel (r : String → String) (move : Span → Span) : Expr → Expr
  | value n span => value n (move span)
  | var name span => var (r name) (move span)
  | neg a span => neg (a.relabel r move) (move span)
  | binary a op b span => binary (a.relabel r move) op (b.relabel r move) (move span)

mutual

/-- The statement with its names and its spans changed. -/
def Stmt.relabel (r : String → String) (move : Span → Span) : Stmt → Stmt
  | .expr e span => .expr (e.relabel r move) (move span)
  | .block body span => .block (relabelAll r move body) (move span)
  | .ifThen cond body span => .ifThen (cond.relabel r move) (relabelAll r move body) (move span)
  | .whileLoop cond body span =>
    .whileLoop (cond.relabel r move) (relabelAll r move body) (move span)
  | .forLoop init cond update body span =>
    .forLoop (init.map (Expr.relabel r move)) (cond.map (Expr.relabel r move))
      (update.map (Expr.relabel r move)) (relabelAll r move body) (move span)

/-- The statements with their names and their spans changed. -/
def relabelAll (r : String → String) (move : Span → Span) : Program → Program
  | [] => []
  | s :: rest => s.relabel r move :: relabelAll r move rest

end

def Program.rename (r : String → String) (p : Program) : Program :=
  relabelAll r id p

section Trees

variable (r : String → String) (move : Span → Span)

theorem isEmpty_relabelAll (p : List Stmt) : (relabelAll r move p).isEmpty = p.isEmpty := by
  cases p <;> rfl

theorem Expr.bare_eq_relabel (e : Expr) : e.bare = e.relabel id fun _ => .none := by
  induction e with
  | value n span => rfl
  | var name span => rfl
  | neg a span ih => rw [bare, ih, relabel]
  | binary a op b span iha ihb => rw [bare, iha, ihb, relabel]

mutual

theorem Stmt.bare_eq_relabel (s : Stmt) : s.bare = s.relabel id fun _ => .none := by
  cases s with
  | expr e span => rw [Stmt.bare, Stmt.relabel, e.bare_eq_relabel]
  | block body span => rw [Stmt.bare, Stmt.relabel, bareAll_eq_relabelAll body]
  | ifThen cond body span | whileLoop cond body span =>
    rw [Stmt.bare, Stmt.relabel, cond.bare_eq_relabel, bareAll_eq_relabelAll body]
  | forLoop init cond update body span =>
    rw [Stmt.bare, Stmt.relabel, bareAll_eq_relabelAll body, ← funext Expr.bare_eq_relabel]

/-- Taking the spans out changes no name. -/
theorem bareAll_eq_relabelAll (p : Program) : bareAll p = relabelAll id (fun _ => .none) p := by
  cases p with
  | nil => rfl
  | cons s rest => rw [bareAll, relabelAll, Stmt.bare_eq_relabel s, bareAll_eq_relabelAll rest]

end

theorem Expr.parts_relabel (e : Expr) :
    (e.relabel r move).parts = e.parts.map (Expr.relabel r move) := by
  induction e with
  | value n span => rfl
  | var name span => rfl
  | neg a span ih => simp only [relabel, parts, ih, List.map_cons]
  | binary a op b span iha ihb =>
    simp only [relabel, parts, iha, ihb, List.map_cons, List.map_append]

theorem clauseParts_relabel (e : Option Expr) :
    clauseParts (e.map (Expr.relabel r move)) = (clauseParts e).map (Expr.relabel r move) := by
  cases e with
  | none => rfl
  | some a => exact a.parts_relabel r move

mutual

theorem Stmt.parts_relabel (s : Stmt) :
    (s.relabel r move).parts = s.parts.map (Expr.relabel r move) := by
  cases s with
  | expr e span => exact e.parts_relabel r move
  | block body span => exact parts_relabelAll body
  | ifThen cond body span | whileLoop cond body span =>
    simp only [Stmt.relabel, Stmt.parts, cond.parts_relabel, parts_relabelAll body, List.map_append]
  | forLoop init cond update body span =>
    simp only [Stmt.relabel, Stmt.parts, clauseParts_relabel, parts_relabelAll body,
      List.map_append]

/-- The expressions of the program are those that it had, with other names and spans. -/
theorem parts_relabelAll (p : Program) :
    (relabelAll r move p).parts = p.parts.map (Expr.relabel r move) := by
  cases p with
  | nil => rfl
  | cons s rest =>
    simp only [relabelAll, Program.parts, Stmt.parts_relabel s, parts_relabelAll rest,
      List.map_append]

end

theorem namesOf_relabel (es : List Expr) :
    namesOf (es.map (Expr.relabel r move)) = (namesOf es).map r := by
  unfold namesOf
  rw [List.filterMap_map, List.map_filterMap]
  congr 1
  funext e
  cases e <;> rfl

end Trees

/-! ## Slots -/

section Slots

variable {r : String → String} {names : List String}

/-- Where different names stay different, a name is found where it was. -/
theorem idxOf_map_of_injOn (hr : Set.InjOn r {x | x ∈ names}) {name : String} (h : name ∈ names) :
    (names.map r).idxOf (r name) = names.idxOf name := by
  induction names with
  | nil => cases h
  | cons x rest ih =>
    by_cases hx : x = name
    · subst hx
      rw [List.map_cons, List.idxOf_cons_self, List.idxOf_cons_self]
    · have hrest : name ∈ rest := (List.mem_cons.1 h).resolve_left (Ne.symm hx)
      have hne : r x ≠ r name := fun heq => hx (hr List.mem_cons_self h heq)
      have hmono : Set.InjOn r {x | x ∈ rest} := hr.mono fun _ => List.mem_cons_of_mem x
      rw [List.map_cons, List.idxOf_cons, List.idxOf_cons, ih hmono hrest, beq_false_of_ne hne,
        beq_false_of_ne hx]

theorem addNew_map {name : String} (hr : Set.InjOn r {x | x ∈ name :: names}) :
    addNew (names.map r) (r name) = (addNew names name).map r := by
  have hmem : r name ∈ names.map r ↔ name ∈ names := by
    refine ⟨fun h => ?_, List.mem_map_of_mem⟩
    obtain ⟨x, hx, heq⟩ := List.mem_map.1 h
    exact hr (List.mem_cons_of_mem _ hx) List.mem_cons_self heq ▸ hx
  unfold addNew
  by_cases h : name ∈ names
  · rw [if_pos (List.contains_iff_mem.2 h), if_pos (List.contains_iff_mem.2 (hmem.2 h))]
  · rw [if_neg (mt List.contains_iff_mem.1 h), if_neg (mt List.contains_iff_mem.1 (mt hmem.1 h)),
      List.map_append, List.map_singleton]

/-- Names are collected in the same order under other names. -/
theorem foldl_addNew_map {found : List String} (hr : Set.InjOn r {x | x ∈ found ++ names}) :
    (names.map r).foldl addNew (found.map r) = (names.foldl addNew found).map r := by
  induction names generalizing found with
  | nil => rfl
  | cons name rest ih =>
    have hname : Set.InjOn r {x | x ∈ name :: found} := hr.mono fun x hx => by
      obtain rfl | hx := List.mem_cons.1 hx
      · exact List.mem_append_right _ List.mem_cons_self
      · exact List.mem_append_left _ hx
    have hrest : Set.InjOn r {x | x ∈ addNew found name ++ rest} := hr.mono fun x hx => by
      simpa [mem_addNew, or_assoc] using hx
    rw [List.map_cons, List.foldl_cons, List.foldl_cons, addNew_map hname, ih hrest]

/-- The slots of the program go along with the names. -/
theorem Program.slots_relabel {p : Program} (move : Span → Span)
    (hr : Set.InjOn r {x | Mentions p.parts x}) :
    Program.slots (relabelAll r move p) = p.slots.map r := by
  have hnames : Set.InjOn r {x | x ∈ [] ++ namesOf p.parts} :=
    hr.mono fun x hx => mem_namesOf.1 hx
  rw [Program.slots_eq, Program.slots_eq, parts_relabelAll, namesOf_relabel,
    ← foldl_addNew_map hnames, List.map_nil]

end Slots

/-! ## Code -/

section Code

variable {target : Target} {r : String → String} {move : Span → Span} {names : List String}

theorem Expr.code_relabel (hr : Set.InjOn r {x | x ∈ names}) {e : Expr} (h : e.Over names) :
    (e.relabel r move).code target (names.map r) = e.code target names := by
  induction e with
  | value n span => rfl
  | var name span => rw [relabel, code, code, idxOf_map_of_injOn hr h]
  | neg a span ih => rw [relabel, code, code, ih h]
  | binary a op b span iha ihb =>
    by_cases hop : op = .assign
    · subst hop
      cases a with
      | var name place =>
        have hname : name ∈ names := h.1
        simp only [relabel, code, ihb h.2, idxOf_map_of_injOn hr hname]
      | _ => simp only [relabel, code, ihb h.2]
    · rw [relabel, Expr.code_binary hop, Expr.code_binary hop, iha h.1, ihb h.2]

theorem clause_relabel (hr : Set.InjOn r {x | x ∈ names}) {e : Option Expr}
    (h : ∀ a ∈ e, a.Over names) :
    Compile.clause target (names.map r) (e.map (Expr.relabel r move)) =
      Compile.clause target names e := by
  cases e with
  | none => rfl
  | some a =>
    show Compile.clause target (names.map r) (some (a.relabel r move)) = _
    rw [Compile.clause, Compile.clause, Expr.code_relabel hr (h a rfl)]

theorem test_relabel (hr : Set.InjOn r {x | x ∈ names}) {cond : Expr} (h : cond.Over names)
    (exit : Label) :
    Compile.test target (names.map r) (cond.relabel r move) exit =
      Compile.test target names cond exit := by
  unfold Compile.test
  rw [Expr.code_relabel hr h]

theorem loop_relabel (hr : Set.InjOn r {x | x ∈ names}) {cond : Expr} {update : Option Expr}
    (hcond : cond.Over names) (hupdate : ∀ a ∈ update, a.Over names)
    (body : Compile (List Step)) :
    Compile.loop target (names.map r) (cond.relabel r move) body
        (update.map (Expr.relabel r move)) =
      Compile.loop target names cond body update := by
  unfold Compile.loop
  simp only [test_relabel hr hcond, clause_relabel hr hupdate]

mutual

theorem Stmt.code_relabel (hr : Set.InjOn r {x | x ∈ names}) {s : Stmt}
    (h : s.Each (Expr.Over names)) :
    (s.relabel r move).code target (names.map r) = s.code target names := by
  cases s with
  | expr e span =>
    exact clause_relabel (e := some e) hr fun a ha => Option.some.inj ha ▸ h
  | block body span =>
    rw [Stmt.relabel, Stmt.code, Stmt.code, isEmpty_relabelAll, statementsCode_relabel hr h]
  | ifThen cond body span =>
    simp only [Stmt.relabel, Stmt.code, isEmpty_relabelAll, statementsCode_relabel hr h.2,
      test_relabel hr h.1]
  | whileLoop cond body span =>
    have hloop : ∀ turn, Compile.loop target (names.map r) (cond.relabel r move) turn
        (Option.map (Expr.relabel r move) none) = Compile.loop target names cond turn none :=
      loop_relabel hr h.1 (by simp)
    rw [Option.map_none] at hloop
    simp only [Stmt.relabel, Stmt.code, isEmpty_relabelAll, statementsCode_relabel hr h.2, hloop]
  | forLoop init cond update body span =>
    obtain ⟨hinit, hcond, hupdate, hbody⟩ := h
    -- the first clause is there or not, and its code stands in front of all the rest
    cases cond with
    | none =>
      cases init with
      | none => rfl
      | some first =>
        simp only [Stmt.relabel, Stmt.code, Option.map_some, Option.map_none,
          Expr.code_relabel hr (hinit first rfl)]
    | some cond =>
      have hloop : ∀ turn, Compile.loop target (names.map r) (cond.relabel r move) turn
          (update.map (Expr.relabel r move)) = Compile.loop target names cond turn update :=
        loop_relabel hr (hcond cond rfl) hupdate
      cases init with
      | none =>
        simp only [Stmt.relabel, Stmt.code, Option.map_some, Option.map_none, isEmpty_relabelAll,
          statementsCode_relabel hr hbody, hloop]
      | some first =>
        simp only [Stmt.relabel, Stmt.code, Option.map_some, isEmpty_relabelAll,
          statementsCode_relabel hr hbody, hloop, Expr.code_relabel hr (hinit first rfl)]

/-- The code takes the numbers of their slots from the names, and nothing from the spans. -/
theorem statementsCode_relabel (hr : Set.InjOn r {x | x ∈ names}) {p : Program}
    (h : p.Each (Expr.Over names)) :
    statementsCode target (names.map r) (relabelAll r move p) =
      statementsCode target names p := by
  cases p with
  | nil => rfl
  | cons s rest =>
    rw [relabelAll, statementsCode, statementsCode, Stmt.code_relabel hr h.1,
      statementsCode_relabel hr h.2]

end

/-- Under other names, the program is emitted as it was. -/
theorem Program.compile_relabel {p : Program} (hr : Set.InjOn r {x | Mentions p.parts x})
    (move : Span → Span) (target : Target) (entry : String) :
    Program.compile target entry (relabelAll r move p) = p.compile target entry := by
  have hslots : Set.InjOn r {x | x ∈ p.slots} := hr.mono fun x hx => Program.mem_slots.1 hx
  have hover : p.Each (Expr.Over p.slots) := over_of_collectAll p (List.Subset.refl _)
  have hcode : Program.code target entry (relabelAll r move p) = p.code target entry := by
    unfold Program.code
    rw [Program.slots_relabel move hr, List.length_map, isEmpty_relabelAll,
      statementsCode_relabel hslots hover]
  unfold Program.compile Emitter.emitProgram
  rw [hcode]

end Code

/-- Programs that are the same but for their spans have the same text. -/
theorem Program.compile_congr {p q : Program} (h : sameTrees p q = true) (target : Target)
    (entry : String) : p.compile target entry = q.compile target entry := by
  have hbare (p : Program) : Program.compile target entry (bareAll p) = p.compile target entry := by
    rw [bareAll_eq_relabelAll]
    exact Program.compile_relabel (Set.injOn_id _) _ target entry
  rw [← hbare p, (sameTrees_iff p q).1 h, hbare]

def renameOne (name word : String) (x : String) : String :=
  if x = name then word else x

theorem injOn_renameOne {name word : String} {names : Set String} (h : word ∉ names) :
    Set.InjOn (renameOne name word) names := by
  intro x hx y hy heq
  unfold renameOne at heq
  split at heq <;> split at heq <;> simp_all

/-- A program whose assignments are to variables has a text, which is the same whatever its
variables are called, as long as different ones are called differently, and whatever its spans are.
In particular any variable may get any word for its name that is not the name of another one. -/
theorem Program.names_unseen {p : Program} (hp : p.Each Expr.WellFormed) (target : Target)
    (entry : String) : ∃ text, p.compile target entry = .ok text ∧
      (∀ r : String → String, Set.InjOn r {x | Mentions p.parts x} →
        ∀ q, sameTrees (p.rename r) q = true → q.compile target entry = .ok text) ∧
      ∀ name word, ¬Mentions p.parts word →
        (p.rename (renameOne name word)).compile target entry = .ok text := by
  obtain ⟨-, e, he, -⟩ := Program.emitProgram_uses target entry hp
  obtain ⟨text, htext⟩ : ∃ text, p.compile target entry = .ok text := ⟨_, Program.compile_eq he⟩
  refine ⟨text, htext, fun r hr q hq => ?_, fun name word hword => ?_⟩
  · rw [← Program.compile_congr hq, ← htext]
    exact Program.compile_relabel hr id target entry
  · rw [← htext]
    exact Program.compile_relabel (injOn_renameOne hword) id target entry

/-- `a = b / a;` and the same with the names of a register and of a handler, at other places. -/
theorem Program.names_unseen_likeRegister :
    let quotient (x y : String) (place : Nat → Span) : Program :=
      [.expr (.binary (.var x (place 0)) .assign
        (.binary (.var y (place 1)) .div (.var x (place 2)) (place 3)) (place 4)) (place 5)]
    let p := quotient "a" "b" fun n => ⟨n, n + 1⟩
    let q := quotient "x19" ".Ltrap_unbound" fun _ => .none
    p.Each Expr.WellFormed ∧ ∀ target entry, ∃ text, p.compile target entry = .ok text ∧
      q.compile target entry = .ok text := by
  intro quotient p q
  have hp : p.Each Expr.WellFormed := by
    simp [p, quotient, Program.Each, Stmt.Each, Expr.WellFormed]
  have hnames : ∀ x, Mentions p.parts x → x = "a" ∨ x = "b" := by
    intro x hx
    have hmem : x ∈ ["a", "b", "a"] := mem_namesOf.2 hx
    simpa [or_comm, or_assoc] using hmem
  let r := fun x => if x = "a" then "x19" else ".Ltrap_unbound"
  have hr : Set.InjOn r {x | Mentions p.parts x} := by
    intro x hx y hy heq
    obtain rfl | rfl := hnames x hx <;> obtain rfl | rfl := hnames y hy <;> revert heq <;> decide
  refine ⟨hp, fun target entry => ?_⟩
  obtain ⟨text, htext, hother, -⟩ := Program.names_unseen hp target entry
  exact ⟨text, htext, hother r hr q (by decide)⟩

end Imp32
