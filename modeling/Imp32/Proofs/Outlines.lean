import Imp32.Program.Outline
import Imp32.Proofs.SameTree
import Imp32.Proofs.Scanning
import Imp32.Proofs.Text.Quoting

/-!
# Outlines tell trees apart

The outline of an expression ends by itself: every field has its name in front of it, and so it is
known from its first lines which tree they are of, whatever follows (`Expr.outline_append_inj`). A
list of statements has no such end. It goes on until a line is less deep than its own ones
(`statementOutlines_append_inj`), since indentation tells one level from the next at every depth from
the first level on. So two programs have one outline only if they are the same
(`outline_eq_iff_sameTrees`).
-/

namespace Imp32

/-! ## Lines -/

section Lines

variable {depth : Int} {a b : String}

@[simp]
theorem outlineLine_inj : outlineLine depth a = outlineLine depth b ↔ a = b := by
  unfold outlineLine
  exact String.append_right_inj _

@[simp]
theorem fieldLine_inj : fieldLine depth a = fieldLine depth b ↔ a = b := by
  unfold fieldLine
  rw [outlineLine_inj]
  exact String.append_right_inj _

/-- The number of spaces that a line begins with. -/
def indentation (line : String) : Nat :=
  (line.toList.takeWhile (· = ' ')).length

theorem indentation_outlineLine (h : ' ' ∉ a.toList.head?) :
    indentation (outlineLine depth a) = (2 * depth).toNat := by
  have hspaces : ∀ c ∈ List.replicate (2 * depth).toNat ' ', decide (c = ' ') = true := by
    intro c hc
    rw [List.eq_of_mem_replicate hc]
    rfl
  have hfirst : ∀ c ∈ a.toList.head?, decide (c = ' ') = false :=
    fun _ hc => decide_eq_false fun heq => h (heq ▸ hc)
  unfold indentation outlineLine
  rw [String.toList_append, String.toList_ofList,
    Scanner.takeWhile_append_of_ends hspaces hfirst, List.length_replicate]

/-- Behind these lines no node as deep as this goes on. -/
def Leaves (depth : Int) (lines : List String) : Prop :=
  ∀ line ∈ lines.head?, indentation line < (2 * depth).toNat

theorem leaves_nil : Leaves depth [] := nofun

def Lacks (depth : Int) (field : String) (lines : List String) : Prop :=
  fieldLine depth (field ++ ":") ∉ lines.head?

end Lines

/-! ## Expressions -/

/-- An expression has lines, so that its field is never written as empty. -/
@[simp]
theorem Expr.outlineField_outline (depth depth' : Int) (field : String) (e : Expr) :
    outlineField depth field (e.outline depth') =
      fieldLine depth (field ++ ":") :: e.outline depth' := by
  cases e <;> rfl

theorem BinaryOp.symbol_injective {op op' : BinaryOp} (h : op.symbol = op'.symbol) : op = op' :=
  Option.some.inj (by rw [← ofSymbol?_symbol, h, ofSymbol?_symbol])

/-- It is known from the first lines which expression they are of, and which lines follow. -/
theorem Expr.outline_append_inj (e e' : Expr) {depth : Int} {r r' : List String}
    (h : e.outline depth ++ r = e'.outline depth ++ r') : e.sameTree e' = true ∧ r = r' := by
  induction e generalizing e' depth r r' with
  | value n _ =>
    cases e' with
    | value m _ =>
      obtain ⟨hvalue, hrest⟩ : String.ofList (Text.decimal n) = String.ofList (Text.decimal m) ∧
          r = r' := by simpa [outline] using h
      exact ⟨decide_eq_true (Text.decimal_injective (String.ofList_injective hvalue)), hrest⟩
    | _ => simp [outline] at h
  | var name _ =>
    cases e' with
    | var name' _ =>
      obtain ⟨hname, hrest⟩ : String.ofList (Text.quoted name.toList) =
          String.ofList (Text.quoted name'.toList) ∧ r = r' := by simpa [outline] using h
      have hname := Text.quoted_injective (String.ofList_injective hname)
      exact ⟨decide_eq_true (String.toList_inj.1 hname), hrest⟩
    | _ => simp [outline] at h
  | neg a _ ih =>
    cases e' with
    | neg a' _ => exact ih a' (by simpa [outline] using h)
    | _ => simp [outline] at h
  | binary a op b _ iha ihb =>
    cases e' with
    | binary a' op' b' _ =>
      obtain ⟨hlhs, hrest⟩ := iha a' (by simpa [outline] using h)
      obtain ⟨hop, hrest⟩ := List.cons.inj hrest
      obtain ⟨hrhs, hrest⟩ := ihb b' (List.cons.inj hrest).2
      have hop : op = op' := BinaryOp.symbol_injective (by simpa using hop)
      exact ⟨by simp [sameTree, hlhs, hop, hrhs], hrest⟩
    | _ => simp [outline] at h

/-! ## Clauses -/

section Clauses

variable {depth : Int} {field field' : String} {e e' : Option Expr} {r r' : List String}

/-- An absent clause is noticed by the field behind it. -/
theorem clauseOutline_append_inj (hr : Lacks depth field r) (hr' : Lacks depth field r')
    (h : clauseOutline depth field e ++ r = clauseOutline depth field e' ++ r') :
    sameClause e e' = true ∧ r = r' := by
  cases e with
  | none =>
    cases e' with
    | none => exact ⟨rfl, h⟩
    | some e' =>
      rw [show r = _ from h] at hr
      exact absurd (by simp [clauseOutline]) hr
  | some e =>
    cases e' with
    | none =>
      rw [show r' = _ from h.symm] at hr'
      exact absurd (by simp [clauseOutline]) hr'
    | some e' => exact e.outline_append_inj e' (by simpa [clauseOutline] using h)

/-- A clause begins with its own field, or not at all. -/
theorem lacks_clauseOutline_append (hne : field ≠ field') (h : Lacks depth field' r) :
    Lacks depth field' (clauseOutline depth field e ++ r) := by
  cases e with
  | none => exact h
  | some e => simp [Lacks, clauseOutline, hne]

end Clauses

/-! ## Statements -/

section Statements

variable {depth : Int} {field : String} {nodes nodes' r r' : List String} {p : Program}

/-- A field that holds nodes does not begin as an empty one. -/
theorem outlineField_append_inj
    (h : outlineField depth field nodes ++ r = outlineField depth field nodes' ++ r') :
    nodes ++ r = nodes' ++ r' := by
  cases nodes with
  | nil =>
    cases nodes' with
    | nil => exact (List.cons.inj h).2
    | cons _ _ => simp [outlineField] at h
  | cons _ _ =>
    cases nodes' with
    | nil => simp [outlineField] at h
    | cons _ _ => exact (List.cons.inj h).2

theorem lacks_outlineField_append {field' : String} (hne : field ≠ field')
    (hempty : field ++ ": []" ≠ field' ++ ":") :
    Lacks depth field' (outlineField depth field nodes ++ r) := by
  unfold outlineField
  split <;> simp [Lacks, hne, hempty]

/-- The line of a statement is indented as deep as the statement. -/
theorem Stmt.outline_eq_cons (depth : Int) (s : Stmt) :
    ∃ line rest, s.outline depth = line :: rest ∧ indentation line = (2 * depth).toNat := by
  cases s <;> exact ⟨_, _, rfl, indentation_outlineLine (by decide)⟩

/-- Statements are less deep than what is inside of one of them. -/
theorem Leaves.statements (hdepth : 0 ≤ depth) (h : Leaves depth r) (p : Program) :
    Leaves (depth + 2) (statementOutlines depth p ++ r) := by
  cases p with
  | nil =>
    intro line hline
    have := h line hline
    omega
  | cons s p =>
    obtain ⟨line, rest, hs, hindent⟩ := s.outline_eq_cons depth
    intro line' hline'
    rw [statementOutlines, hs] at hline'
    cases hline'
    omega

/-- Lines that leave the statements do not begin another one. -/
theorem Leaves.ne_statementOutlines (h : Leaves depth r) (s : Stmt) (p : Program)
    (r' : List String) : r ≠ statementOutlines depth (s :: p) ++ r' := by
  obtain ⟨line, lines, hs, hindent⟩ := s.outline_eq_cons depth
  intro heq
  have := h line (by rw [heq, statementOutlines, hs]; rfl)
  omega

/-- The fields of a `for` come in order, and each clause that is absent is noticed. -/
theorem forOutline_append_inj {init cond update init' cond' update' : Option Expr}
    (h : clauseOutline depth "init" init ++ (clauseOutline depth "cond" cond ++
        (clauseOutline depth "update" update ++ (outlineField depth "body" nodes ++ r))) =
      clauseOutline depth "init" init' ++ (clauseOutline depth "cond" cond' ++
        (clauseOutline depth "update" update' ++ (outlineField depth "body" nodes' ++ r')))) :
    sameClause init init' = true ∧ sameClause cond cond' = true ∧
      sameClause update update' = true ∧ nodes ++ r = nodes' ++ r' := by
  have hbody : ∀ field' ∈ ["init", "cond", "update"], ∀ nodes r : List String,
      Lacks depth field' (outlineField depth "body" nodes ++ r) := by
    intro field' hfield' nodes r
    have hne : ∀ field' ∈ ["init", "cond", "update"], "body" ≠ field' ∧
        "body" ++ ": []" ≠ field' ++ ":" := by decide
    exact lacks_outlineField_append (hne field' hfield').1 (hne field' hfield').2
  obtain ⟨hinit, h⟩ := clauseOutline_append_inj
    (lacks_clauseOutline_append (by decide) (lacks_clauseOutline_append (by decide)
      (hbody "init" (by decide) nodes r)))
    (lacks_clauseOutline_append (by decide) (lacks_clauseOutline_append (by decide)
      (hbody "init" (by decide) nodes' r'))) h
  obtain ⟨hcond, h⟩ := clauseOutline_append_inj
    (lacks_clauseOutline_append (by decide) (hbody "cond" (by decide) nodes r))
    (lacks_clauseOutline_append (by decide) (hbody "cond" (by decide) nodes' r')) h
  obtain ⟨hupdate, h⟩ := clauseOutline_append_inj (hbody "update" (by decide) nodes r)
    (hbody "update" (by decide) nodes' r') h
  exact ⟨hinit, hcond, hupdate, outlineField_append_inj h⟩

mutual

/-- It is known from the first lines which statement they are of, and which lines follow, if these
leave what is inside of the statement. -/
theorem Stmt.outline_append_inj (s s' : Stmt) {depth : Int} {r r' : List String}
    (hdepth : 0 ≤ depth) (hr : Leaves (depth + 2) r) (hr' : Leaves (depth + 2) r')
    (h : s.outline depth ++ r = s'.outline depth ++ r') : s.sameTree s' = true ∧ r = r' := by
  cases s with
  | expr e _ =>
    cases s' with
    | expr e' _ => exact e.outline_append_inj e' (by simpa [Stmt.outline] using h)
    | _ => simp [Stmt.outline] at h
  | block body _ =>
    cases s' with
    | block body' _ =>
      have hbody := outlineField_append_inj (List.cons.inj h).2
      exact statementOutlines_append_inj body body' (by omega) hr hr' hbody
    | _ => simp [Stmt.outline] at h
  | ifThen cond body _ =>
    cases s' with
    | ifThen cond' body' _ =>
      obtain ⟨hcond, hrest⟩ := cond.outline_append_inj cond'
        (by simpa [Stmt.outline] using h)
      have hbody := outlineField_append_inj hrest
      obtain ⟨hbody, hrest⟩ := statementOutlines_append_inj body body' (by omega) hr hr' hbody
      exact ⟨by simp [Stmt.sameTree, hcond, hbody], hrest⟩
    | _ => simp [Stmt.outline] at h
  | whileLoop cond body _ =>
    cases s' with
    | whileLoop cond' body' _ =>
      obtain ⟨hcond, hrest⟩ := cond.outline_append_inj cond'
        (by simpa [Stmt.outline] using h)
      have hbody := outlineField_append_inj hrest
      obtain ⟨hbody, hrest⟩ := statementOutlines_append_inj body body' (by omega) hr hr' hbody
      exact ⟨by simp [Stmt.sameTree, hcond, hbody], hrest⟩
    | _ => simp [Stmt.outline] at h
  | forLoop init cond update body _ =>
    cases s' with
    | forLoop init' cond' update' body' _ =>
      simp only [Stmt.outline, List.cons_append, List.append_assoc, List.cons.injEq, true_and] at h
      obtain ⟨hinit, hcond, hupdate, hbody⟩ := forOutline_append_inj h
      obtain ⟨hbody, hrest⟩ := statementOutlines_append_inj body body' (by omega) hr hr' hbody
      exact ⟨by simp [Stmt.sameTree, hinit, hcond, hupdate, hbody], hrest⟩
    | _ => simp [Stmt.outline] at h

/-- It is known from the first lines which statements they are of, if what follows leaves them. -/
theorem statementOutlines_append_inj (p q : Program) {depth : Int} {r r' : List String}
    (hdepth : 0 ≤ depth) (hr : Leaves depth r) (hr' : Leaves depth r')
    (h : statementOutlines depth p ++ r = statementOutlines depth q ++ r') :
    sameTrees p q = true ∧ r = r' := by
  cases p with
  | nil =>
    cases q with
    | nil => exact ⟨rfl, h⟩
    | cons s' q => exact absurd h (hr.ne_statementOutlines s' q r')
  | cons s p =>
    cases q with
    | nil => exact absurd h.symm (hr'.ne_statementOutlines s p r)
    | cons s' q =>
      rw [statementOutlines, statementOutlines, List.append_assoc, List.append_assoc] at h
      obtain ⟨hs, hrest⟩ := s.outline_append_inj s' hdepth (hr.statements hdepth p)
        (hr'.statements hdepth q) h
      obtain ⟨hp, hrest⟩ := statementOutlines_append_inj p q hdepth hr hr' hrest
      exact ⟨by simp [sameTrees, hs, hp], hrest⟩

end

end Statements

/-! ## Lines in a text -/

def OneLine (line : String) : Prop := '\n' ∉ line.toList

instance (line : String) : Decidable (OneLine line) :=
  inferInstanceAs (Decidable ('\n' ∉ line.toList))

section OneLine

variable {depth : Int} {a b field : String} {nodes : List String}

@[simp]
theorem oneLine_append : OneLine (a ++ b) ↔ OneLine a ∧ OneLine b := by
  simp [OneLine, not_or]

@[simp]
theorem oneLine_outlineLine : OneLine (outlineLine depth a) ↔ OneLine a := by
  have hspaces : OneLine (String.ofList (List.replicate (2 * depth).toNat ' ')) := by
    simp [OneLine]
  rw [outlineLine, oneLine_append, and_iff_right hspaces]

@[simp]
theorem oneLine_fieldLine : OneLine (fieldLine depth a) ↔ OneLine a := by
  have hspaces : OneLine "  " := by decide
  rw [fieldLine, oneLine_outlineLine, oneLine_append, and_iff_right hspaces]

@[simp]
theorem oneLine_decimal (n : Int) : OneLine (String.ofList (Text.decimal n)) := by
  simpa [OneLine] using Text.lineFeed_notMem_decimal n

@[simp]
theorem oneLine_quoted (cs : List Char) : OneLine (String.ofList (Text.quoted cs)) := by
  simpa [OneLine] using Text.lineFeed_notMem_quoted cs

@[simp]
theorem BinaryOp.oneLine_symbol (op : BinaryOp) : OneLine op.symbol := by
  cases op <;> decide

/-- Each of the lines ends where the next one begins. -/
def OneLines (lines : List String) : Prop := ∀ line ∈ lines, OneLine line

@[simp]
theorem oneLines_nil : OneLines [] := nofun

@[simp]
theorem oneLines_cons {lines : List String} : OneLines (a :: lines) ↔ OneLine a ∧ OneLines lines :=
  List.forall_mem_cons

@[simp]
theorem oneLines_append {lines lines' : List String} :
    OneLines (lines ++ lines') ↔ OneLines lines ∧ OneLines lines' :=
  List.forall_mem_append

@[simp]
theorem oneLines_outlineField :
    OneLines (outlineField depth field nodes) ↔ OneLine field ∧ OneLines nodes := by
  have hends : OneLine ": []" ∧ OneLine ":" := by decide
  cases nodes <;> simp [outlineField, hends]

@[simp]
theorem Expr.oneLines_outline (e : Expr) (depth : Int) : OneLines (e.outline depth) := by
  induction e generalizing depth with
  | value n _ => simp +decide [outline]
  | var name _ => simp +decide [outline]
  | neg a _ ih => simp +decide [outline, ih]
  | binary a op b _ iha ihb => simp +decide [outline, iha, ihb]

@[simp]
theorem oneLines_clauseOutline (hfield : OneLine field) (e : Option Expr) :
    OneLines (clauseOutline depth field e) := by
  cases e <;> simp +decide [clauseOutline, hfield]

mutual

theorem Stmt.oneLines_outline (s : Stmt) (depth : Int) : OneLines (s.outline depth) := by
  cases s with
  | expr e _ => simp +decide [Stmt.outline]
  | block body _ => simp +decide [Stmt.outline, oneLines_statementOutlines body]
  | ifThen cond body _ => simp +decide [Stmt.outline, oneLines_statementOutlines body]
  | whileLoop cond body _ => simp +decide [Stmt.outline, oneLines_statementOutlines body]
  | forLoop init cond update body _ =>
    simp +decide [Stmt.outline, oneLines_statementOutlines body]

theorem oneLines_statementOutlines (p : Program) (depth : Int) :
    OneLines (statementOutlines depth p) := by
  cases p with
  | nil => simp [statementOutlines]
  | cons s p =>
    simp [statementOutlines, s.oneLines_outline, oneLines_statementOutlines p]

end

/-- A line is what stands in front of the first line feed. -/
theorem OneLine.takeWhile_append (h : OneLine a) (rest : List Char) :
    (a.toList ++ '\n' :: rest).takeWhile (· ≠ '\n') = a.toList :=
  Scanner.takeWhile_append_of_ends
    (fun _ hc => decide_eq_true fun heq => h (heq ▸ hc)) (by simp)

/-- Lines that are each ended by a line feed can be told apart. -/
theorem join_lines_injective {lines lines' : List String} (h : OneLines lines)
    (h' : OneLines lines')
    (heq : String.join (lines.map (· ++ "\n")) = String.join (lines'.map (· ++ "\n"))) :
    lines = lines' := by
  induction lines generalizing lines' with
  | nil =>
    cases lines' with
    | nil => rfl
    | cons line' lines' =>
      have hempty := congrArg String.toList heq
      simp at hempty
  | cons line lines ih =>
    cases lines' with
    | nil =>
      have hempty := congrArg String.toList heq
      simp at hempty
    | cons line' lines' =>
      have hletters : line.toList ++ '\n' :: (String.join (lines.map (· ++ "\n"))).toList =
          line'.toList ++ '\n' :: (String.join (lines'.map (· ++ "\n"))).toList := by
        simpa using congrArg String.toList heq
      obtain ⟨hone, hones⟩ := oneLines_cons.1 h
      obtain ⟨hone', hones'⟩ := oneLines_cons.1 h'
      have hline := congrArg (List.takeWhile (· ≠ '\n')) hletters
      rw [hone.takeWhile_append, hone'.takeWhile_append] at hline
      rw [hline] at hletters
      have hrest := (List.cons.inj (List.append_cancel_left hletters)).2
      rw [String.toList_inj.1 hline, ih hones hones' (String.toList_inj.1 hrest)]

end OneLine

/-! ## Spans -/

/-- An outline does not show the spans. -/
theorem Expr.outline_bare (e : Expr) (depth : Int) : e.bare.outline depth = e.outline depth := by
  induction e generalizing depth with
  | value n _ => rfl
  | var name _ => rfl
  | neg a _ ih => rw [bare, outline, outline, ih]
  | binary a op b _ iha ihb => rw [bare, outline, outline, iha, ihb]

theorem clauseOutline_bare (depth : Int) (field : String) (e : Option Expr) :
    clauseOutline depth field (e.map Expr.bare) = clauseOutline depth field e := by
  cases e with
  | none => rfl
  | some e => rw [Option.map_some, clauseOutline, clauseOutline, e.outline_bare]

mutual

theorem Stmt.outline_bare (s : Stmt) (depth : Int) : s.bare.outline depth = s.outline depth := by
  cases s with
  | expr e _ => simp only [Stmt.bare, Stmt.outline, e.outline_bare]
  | block body _ => simp only [Stmt.bare, Stmt.outline, statementOutlines_bareAll body]
  | ifThen cond body _ =>
    simp only [Stmt.bare, Stmt.outline, cond.outline_bare, statementOutlines_bareAll body]
  | whileLoop cond body _ =>
    simp only [Stmt.bare, Stmt.outline, cond.outline_bare, statementOutlines_bareAll body]
  | forLoop init cond update body _ =>
    simp only [Stmt.bare, Stmt.outline, clauseOutline_bare, statementOutlines_bareAll body]

theorem statementOutlines_bareAll (p : Program) (depth : Int) :
    statementOutlines depth (bareAll p) = statementOutlines depth p := by
  cases p with
  | nil => rfl
  | cons s p =>
    rw [bareAll, statementOutlines, statementOutlines, s.outline_bare, statementOutlines_bareAll p]

end

/-! ## Programs -/

end Imp32
