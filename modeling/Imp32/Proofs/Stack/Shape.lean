import Imp32.Proofs.Machine

/-!
# The shape of the stack

What is known statically of the operands in front of a line: how many there are, and what the result
register holds (`Shape`). `Rules` say, for the instructions of a machine, from which shape to which
one an instruction leads. Lines pass from one shape to another if the rules of their instructions
compose (`Rules.Passes`), and they are checked if moreover every label that they jump to is set at
the depth of the jump (`Rules.Checked`). Checked segments compose, whatever labels they set.
-/

namespace Imp32.Assembly

/-- What is known of the result register. -/
inductive Known where
  | any
  /-- It holds a word. -/
  | word
  /-- It holds what a slot holds. -/
  | loaded
  /-- It holds what a slot holds, and so does a register beside it. -/
  | copied
  /-- It holds what a slot holds, and whether that is a word has been computed. -/
  | tested
  /-- It holds a word, and the topmost operand has a cell that is not written yet. -/
  | opened
  deriving DecidableEq

/-- Whatever the result register holds, it may be overwritten. -/
def Known.Idle (known : Known) : Prop := known = .any ∨ known = .word

/-- What is known in front of a line. -/
structure Shape where
  /-- The number of operands. -/
  depth : Nat
  known : Known
  deriving DecidableEq

/-- The number of operands whose cells are written. -/
def Shape.filled (a : Shape) : Nat :=
  match a.known with
  | .opened => a.depth - 1
  | _ => a.depth

theorem Known.Idle.filled {known : Known} (h : known.Idle) (depth : Nat) :
    Shape.filled ⟨depth, known⟩ = depth := by
  rcases h with rfl | rfl <;> rfl

/-- The label is none of a handler, or of the handler of a failure that has a code. -/
def Label.handled : Label → Bool
  | trap kind => (trapCode? kind).isSome
  | _ => true

def Label.isTrap : Label → Bool
  | trap _ => true
  | _ => false

theorem Label.handled_of_isTrap {l : Label} (h : l.isTrap = false) : l.handled = true := by
  cases l with
  | trap kind => cases h
  | _ => rfl

section Nets

variable {Instr : Type}

/-- By how many operands a line makes the stack deeper, if instructions do it by `net`. -/
def Line.net (net : Instr → Int) : Line Instr → Int
  | instr i => net i
  | _ => 0

/-- By how many operands lines make the stack deeper. -/
def netOf (net : Instr → Int) (lines : List (Line Instr)) : Int :=
  lines.foldr (fun x depth => x.net net + depth) 0

/-- The labels that `f` finds on lines, with the depth in front of the line. -/
def marks (net : Instr → Int) (f : Line Instr → Option Label) :
    (depth : Int) → List (Line Instr) → List (Label × Int)
  | _, [] => []
  | depth, x :: rest => ((f x).map (·, depth)).toList ++ marks net f (depth + x.net net) rest

variable {net : Instr → Int} {f : Line Instr → Option Label} {a b lines : List (Line Instr)}
  {depth : Int}

@[simp] theorem netOf_nil : netOf net [] = 0 := rfl

@[simp] theorem netOf_cons (x : Line Instr) : netOf net (x :: lines) = x.net net + netOf net lines :=
  rfl

@[simp] theorem netOf_append : netOf net (a ++ b) = netOf net a + netOf net b := by
  induction a with
  | nil => exact (Int.zero_add _).symm
  | cons x a ih => rw [List.cons_append, netOf_cons, netOf_cons, ih, Int.add_assoc]

theorem marks_append :
    marks net f depth (a ++ b) = marks net f depth a ++ marks net f (depth + netOf net a) b := by
  induction a generalizing depth with
  | nil => rw [List.nil_append, netOf_nil, Int.add_zero]; rfl
  | cons x a ih =>
    rw [List.cons_append, netOf_cons, ← Int.add_assoc]
    show _ ++ marks net f _ (a ++ b) = _ ++ _ ++ _
    rw [ih, List.append_assoc]

theorem mem_label (l : Label) (depth : Int) (rest : List (Line Instr)) :
    (l, depth) ∈ marks net Line.label? depth (.label l :: rest) :=
  List.mem_cons_self

/-- A mark is the label on a line, with the depth that the lines before it lead to. -/
theorem mem_marks {l : Label} {d : Int} : (l, d) ∈ marks net f depth lines ↔
    ∃ k x, lines[k]? = some x ∧ f x = some l ∧ d = depth + netOf net (lines.take k) := by
  induction lines generalizing depth with
  | nil => simp [marks]
  | cons y rest ih =>
    unfold marks
    rw [List.mem_append, ih]
    constructor
    · rintro (h | ⟨k, x, hx, hl, hd⟩)
      · obtain ⟨l', hl', heq⟩ : ∃ l', f y = some l' ∧ (l', depth) = (l, d) := by simpa using h
        cases heq
        exact ⟨0, y, rfl, hl', by simp⟩
      · refine ⟨k + 1, x, by simpa using hx, hl, ?_⟩
        rw [hd, List.take_succ_cons, netOf_cons, Int.add_assoc]
    · rintro ⟨k, x, hx, hl, hd⟩
      cases k with
      | zero =>
        cases (by simpa using hx : y = x)
        left
        simpa [hl] using hd
      | succ k =>
        refine .inr ⟨k, x, by simpa using hx, hl, ?_⟩
        rw [hd, List.take_succ_cons, netOf_cons, Int.add_assoc]

end Nets

/-! ## Rules -/

/-- From which shapes to which ones the instructions of a machine lead. -/
structure Rules {Instr : Type} (net : Instr → Int) where
  Flow : Instr → Shape → Shape → Prop
  /-- Where an instruction may jump. -/
  goal? : Instr → Option Label
  depth_eq : ∀ {i a b}, Flow i a b → (b.depth : Int) = a.depth + net i
  /-- A jump that goes to no handler leaves the shape alone, with a word in the result register. -/
  level : ∀ {i a b l}, Flow i a b → goal? i = some l → l.isTrap = false →
    a.known = .word ∧ b = a
  handled : ∀ {i a b l}, Flow i a b → goal? i = some l → l.handled = true

namespace Rules

variable {Instr : Type} {net : Instr → Int}

/-- The label that a line may jump to, unless it is one of a handler. -/
def exit? (r : Rules net) : Line Instr → Option Label
  | .instr i => (r.goal? i).filter fun l => !l.isTrap
  | _ => none

/-- The rules of the lines compose. In front of a label, the result register holds a word. -/
inductive Passes (r : Rules net) : List (Line Instr) → Shape → Shape → Prop
  | nil (a : Shape) : r.Passes [] a a
  | instr {i : Instr} {rest : List (Line Instr)} {a b c : Shape} :
    r.Flow i a b → r.Passes rest b c → r.Passes (.instr i :: rest) a c
  | label {l : Label} {rest : List (Line Instr)} {depth : Nat} {c : Shape} :
    r.Passes rest ⟨depth, .word⟩ c → r.Passes (.label l :: rest) ⟨depth, .word⟩ c

variable {r : Rules net} {lines x y : List (Line Instr)} {a b c : Shape}
  {out out' : List (Label × Int)}

theorem exit?_of_goal {i : Instr} {l : Label} (hgoal : r.goal? i = some l) (hl : l.isTrap = false) :
    r.exit? (.instr i) = some l := by
  show (r.goal? i).filter (fun l => !l.isTrap) = some l
  rw [hgoal, Option.filter_some, hl]
  rfl

theorem Passes.append (hx : r.Passes x a b) (hy : r.Passes y b c) : r.Passes (x ++ y) a c := by
  induction hx with
  | nil a => exact hy
  | instr h _ ih => exact .instr h (ih hy)
  | label _ ih => exact .label (ih hy)

theorem Passes.split (h : r.Passes (x ++ y) a c) : ∃ b, r.Passes x a b ∧ r.Passes y b c := by
  induction x generalizing a with
  | nil => exact ⟨a, .nil a, h⟩
  | cons line x ih =>
    cases h with
    | instr hflow hrest =>
      obtain ⟨b, hx, hy⟩ := ih hrest
      exact ⟨b, .instr hflow hx, hy⟩
    | label hrest =>
      obtain ⟨b, hx, hy⟩ := ih hrest
      exact ⟨b, .label hx, hy⟩

theorem Passes.depth_eq (h : r.Passes lines a b) : (b.depth : Int) = a.depth + netOf net lines := by
  induction h with
  | nil a => simp
  | instr hflow _ ih =>
    rw [ih, r.depth_eq hflow, netOf_cons, Int.add_assoc]
    rfl
  | label _ ih => simpa [Line.net] using ih

/-- The lines pass from a shape to another one, and the labels that they jump to are set by them at
the depth of the jump, or stand among those outside with this depth. -/
structure Checked (r : Rules net) (out : List (Label × Int)) (lines : List (Line Instr))
    (a b : Shape) : Prop where
  passes : r.Passes lines a b
  level : marks net r.exit? a.depth lines ⊆ marks net Line.label? a.depth lines ++ out

namespace Checked

theorem nil (a : Shape) : r.Checked out [] a a := ⟨.nil a, List.nil_subset _⟩

theorem append (hx : r.Checked out x a b) (hy : r.Checked out y b c) :
    r.Checked out (x ++ y) a c where
  passes := hx.passes.append hy.passes
  level := by
    have hlevel := hy.level
    rw [hx.passes.depth_eq] at hlevel
    rw [marks_append, marks_append]
    intro mark hmark
    rcases List.mem_append.1 hmark with hmark | hmark
    · rcases List.mem_append.1 (hx.level hmark) with h | h
      · exact List.mem_append_left _ (List.mem_append_left _ h)
      · exact List.mem_append_right _ h
    · rcases List.mem_append.1 (hlevel hmark) with h | h
      · exact List.mem_append_left _ (List.mem_append_right _ h)
      · exact List.mem_append_right _ h

theorem label {l : Label} {depth : Nat} (h : r.Checked out lines ⟨depth, .word⟩ c) :
    r.Checked out (.label l :: lines) ⟨depth, .word⟩ c where
  passes := .label h.passes
  level := by
    have hlevel := h.level
    rw [← Int.add_zero ((⟨depth, .word⟩ : Shape).depth : Int)] at hlevel
    exact fun _ hmark => List.mem_cons_of_mem _ (hlevel hmark)

/-- What a segment sets behind a checked one. -/
theorem mem_right {mark : Label × Int} (hx : r.Checked out x a b)
    (h : mark ∈ marks net Line.label? b.depth y) :
    mark ∈ marks net Line.label? a.depth (x ++ y) := by
  rw [marks_append, ← hx.passes.depth_eq]
  exact List.mem_append_right _ h

theorem mono (h : r.Checked out lines a b) (hout : out ⊆ out') : r.Checked out' lines a b :=
  ⟨h.passes, fun _ hmark => List.mem_append.2 ((List.mem_append.1 (h.level hmark)).imp_right (hout ·))⟩

/-- The labels outside are set by the lines themselves. -/
theorem close (h : r.Checked out lines a b) (hout : out ⊆ marks net Line.label? a.depth lines) :
    r.Checked [] lines a b := by
  refine ⟨h.passes, fun mark hmark => List.mem_append_left _ ?_⟩
  rcases List.mem_append.1 (h.level hmark) with hset | hmem
  · exact hset
  · exact hout hmem

/-- A jump to a label outside. -/
theorem leave {i : Instr} {l : Label} (hflow : r.Flow i a b) (hgoal : r.goal? i = some l)
    (hl : l.isTrap = false) (hout : (l, (a.depth : Int)) ∈ out) : r.Checked out [.instr i] a b where
  passes := .instr hflow (.nil b)
  level := by
    have hmarks : marks net r.exit? a.depth [.instr i] = [(l, (a.depth : Int))] := by
      show ((r.exit? (.instr i)).map (·, (a.depth : Int))).toList ++ [] = _
      rw [exit?_of_goal hgoal hl]
      rfl
    rw [hmarks]
    exact fun mark hmark => List.mem_append_right _ (List.mem_singleton.1 hmark ▸ hout)

/-- A jump leads to a label at its depth. -/
theorem exists_label (h : r.Checked [] lines a b) {k : Nat} {i : Instr} {l : Label}
    (hk : lines[k]? = some (.instr i)) (hgoal : r.goal? i = some l) (hl : l.isTrap = false) :
    ∃ k', lines[k']? = some (.label l) ∧ netOf net (lines.take k') = netOf net (lines.take k) := by
  have hmark := h.level (mem_marks.2 ⟨k, _, hk, exit?_of_goal hgoal hl, rfl⟩)
  rw [List.append_nil] at hmark
  obtain ⟨k', x, hx, hlabel, hdepth⟩ := mem_marks.1 hmark
  refine ⟨k', ?_, by omega⟩
  rw [hx]
  cases x with
  | label l' =>
    cases hlabel
    rfl
  | _ => cases hlabel

end Checked

end Rules

end Imp32.Assembly
