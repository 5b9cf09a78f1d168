import Imp32.Proofs.Grammar.Complete
import Imp32.Proofs.Reading.Parts
import Imp32.Proofs.Spans.Reports
import Imp32.Proofs.Spans.Texts

/-!
# The text of an expression

The span of an expression goes from the first of its tokens to the last, without the parentheses
at its two edges: an operand in parentheses has a span inside them, and the expression around it
goes no further (`Node.exists_core`). So the text under the span reads as the expression again if
no operand in parentheses stands at an edge, which is to say that the parentheses in the text
match, and is no expression otherwise (`Program.parts_readBack`).
-/

namespace Imp32

open Grammar

/-! ## Parentheses at the edges -/

section Edges

variable {xs ys opens closes : List Lexeme} {depth : Nat}

theorem nestAll?_opens (h : ∀ l ∈ opens, l = .leftParen) (depth : Nat) :
    nestAll? depth opens = some (depth + opens.length) := by
  induction opens generalizing depth with
  | nil => rfl
  | cons l opens ih =>
    obtain ⟨rfl, hopens⟩ := List.forall_mem_cons.1 h
    rw [nestAll?_cons]
    show nestAll? (depth + 1) opens = _
    rw [ih hopens, List.length_cons, Nat.add_right_comm, Nat.add_assoc]

/-- Without the parentheses at the front, one that none opens is closed. -/
theorem eq_nil_of_opens (hopens : ∀ l ∈ opens, l = .leftParen) (h : ParensMatch (opens ++ xs))
    (hxs : nestAll? 0 xs = some depth) : opens = [] := by
  unfold ParensMatch at h
  rw [nestAll?_append, nestAll?_opens hopens, Option.bind_some, nestAll?_add hxs] at h
  have hlen := Option.some.inj h
  exact List.eq_nil_of_length_eq_zero (by omega)

/-- Without the parentheses at the end, one stays open. -/
theorem eq_nil_of_closes (hcloses : ∀ l ∈ closes, l = .rightParen) (h : ParensMatch (xs ++ closes))
    (hxs : ParensMatch xs) : closes = [] := by
  unfold ParensMatch at h
  rw [nestAll?_append, hxs, Option.bind_some] at h
  cases closes with
  | nil => rfl
  | cons l closes =>
    obtain rfl := hcloses l List.mem_cons_self
    cases h

end Edges

/-! ## The tokens under a span -/

namespace Placed

section Spans

variable {ts xs ys : List Token} {a b e : Expr} {op : BinaryOp} {span : Span}

theorem Expression.neg_span (h : Expression ts a) (ho : Ordered (⟨.op .sub, span⟩ :: ts)) :
    span.join a.span = ⟨span.start, a.span.stop⟩ := by
  have hsign : Touches [⟨.op .sub, span⟩] span := touches_token (t := ⟨.op .sub, span⟩)
    List.mem_cons_self (ho.sublist (List.singleton_sublist.2 List.mem_cons_self))
  have ho' : Ordered ([⟨.op .sub, span⟩] ++ ts) := ho
  exact hsign.join_eq ho' (h.touches (ho.sublist (List.sublist_cons_self _ _)))

theorem Expression.binary_span (ha : Expression xs a) (hb : Expression ys b)
    (ho : Ordered (xs ++ ⟨.op op, span⟩ :: ys)) :
    a.span.join b.span = ⟨a.span.start, b.span.stop⟩ := by
  have hys := hb.touches
    (ho.sublist ((List.sublist_cons_self _ _).trans (List.sublist_append_right _ _)))
  exact (ha.touches (ho.sublist (List.sublist_append_left _ _))).join_eq ho
    (hys.mono (List.subset_cons_self _ _))

/-- Behind parentheses stands the token at which the expression's span begins. -/
theorem Expression.exists_first (h : Expression ts e) (ho : Ordered ts) :
    ∃ opens t rest, ts = opens ++ t :: rest ∧ (∀ o ∈ opens, o.lexeme = .leftParen) ∧
      t.span.start = e.span.start := by
  induction h with
  | value n span => exact ⟨[], _, [], rfl, nofun, rfl⟩
  | var name span => exact ⟨[], _, [], rfl, nofun, rfl⟩
  | neg span ha _ =>
    refine ⟨[], _, _, rfl, nofun, ?_⟩
    show span.start = (span.join _).start
    rw [ha.neg_span ho]
  | binary op span ha hb iha _ =>
    obtain ⟨opens, t, rest, rfl, hopens, hstart⟩ := iha (ho.sublist (List.sublist_append_left _ _))
    refine ⟨opens, t, rest ++ ⟨.op op, span⟩ :: _, List.append_assoc _ _ _, hopens, ?_⟩
    rw [hstart]
    show _ = (Span.join _ _).start
    rw [ha.binary_span hb ho]
  | paren o c _ ih =>
    obtain ⟨opens, t, rest, rfl, hopens, hstart⟩ := ih
      (ho.sublist ((List.sublist_cons_self _ _).trans (List.sublist_append_left _ _)))
    refine ⟨⟨.leftParen, o⟩ :: opens, t, rest ++ [⟨.rightParen, c⟩], by simp,
      List.forall_mem_cons.2 ⟨rfl, hopens⟩, hstart⟩

/-- In front of parentheses stands the token at which the expression's span ends. -/
theorem Expression.exists_last (h : Expression ts e) (ho : Ordered ts) :
    ∃ rest t closes, ts = rest ++ [t] ++ closes ∧ (∀ c ∈ closes, c.lexeme = .rightParen) ∧
      t.span.stop = e.span.stop := by
  induction h with
  | value n span => exact ⟨[], _, [], rfl, nofun, rfl⟩
  | var name span => exact ⟨[], _, [], rfl, nofun, rfl⟩
  | neg span ha ih =>
    obtain ⟨rest, t, closes, rfl, hcloses, hstop⟩ := ih (ho.sublist (List.sublist_cons_self _ _))
    refine ⟨⟨.op .sub, span⟩ :: rest, t, closes, rfl, hcloses, ?_⟩
    rw [hstop]
    show _ = (span.join _).stop
    rw [ha.neg_span ho]
  | @binary xs _ _ _ op span ha hb _ ihb =>
    obtain ⟨rest, t, closes, rfl, hcloses, hstop⟩ := ihb
      (ho.sublist ((List.sublist_cons_self _ _).trans (List.sublist_append_right _ _)))
    refine ⟨xs ++ ⟨.op op, span⟩ :: rest, t, closes, by simp, hcloses, ?_⟩
    rw [hstop]
    show _ = (Span.join _ _).stop
    rw [ha.binary_span hb ho]
  | paren o c _ ih =>
    obtain ⟨rest, t, closes, rfl, hcloses, hstop⟩ := ih
      (ho.sublist ((List.sublist_cons_self _ _).trans (List.sublist_append_left _ _)))
    refine ⟨⟨.leftParen, o⟩ :: rest, t, closes ++ [⟨.rightParen, c⟩], by simp,
      List.forall_mem_append.2 ⟨hcloses, List.forall_mem_singleton.2 rfl⟩, hstop⟩

theorem isLexeme_of_mem_map {us : List Token} {l : Lexeme} (h : ∀ t ∈ us, t.lexeme = l) :
    ∀ l' ∈ us.map Token.lexeme, l' = l :=
  List.forall_mem_map.2 h

/-- The tokens under the span of a negation. -/
theorem exists_core_neg (ha : Expression ts a) (ho : Ordered (⟨.op .sub, span⟩ :: ts)) :
    ∃ core closes, ⟨.op .sub, span⟩ :: ts = core ++ closes ∧ Covers core (span.join a.span) ∧
      (ParensMatch (core.map Token.lexeme) → closes = []) := by
  have htouches := (Expression.neg span ha).touches ho
  obtain ⟨rest, t, closes, rfl, hcloses, hstop⟩ :=
    ha.exists_last (ho.sublist (List.sublist_cons_self _ _))
  refine ⟨⟨.op .sub, span⟩ :: (rest ++ [t]), closes, rfl, ⟨⟨_, rfl, ?_⟩, ⟨t, ?_, ?_⟩,
    htouches.nonempty⟩, fun hmatch => ?_⟩
  · rw [ha.neg_span ho]
  · rw [← List.cons_append, List.getLast?_concat]
  · rw [ha.neg_span ho, hstop]
  · have hparens := ha.frames.parens
    rw [List.map_append] at hparens
    exact List.map_eq_nil_iff.1 (eq_nil_of_closes (isLexeme_of_mem_map hcloses) hparens hmatch)

/-- The tokens under the span of an operator with its operands. -/
theorem exists_core_binary (ha : Expression xs a) (hb : Expression ys b)
    (ho : Ordered (xs ++ ⟨.op op, span⟩ :: ys)) :
    ∃ opens core closes, xs ++ ⟨.op op, span⟩ :: ys = opens ++ (core ++ closes) ∧
      Covers core (a.span.join b.span) ∧
        (ParensMatch (core.map Token.lexeme) → opens = [] ∧ closes = []) := by
  have htouches := (Expression.binary op span ha hb).touches ho
  have hspan := ha.binary_span hb ho
  obtain ⟨opens, f, front, rfl, hopens, hstart⟩ :=
    ha.exists_first (ho.sublist (List.sublist_append_left _ _))
  obtain ⟨back, l, closes, rfl, hcloses, hstop⟩ :=
    hb.exists_last (ho.sublist ((List.sublist_cons_self _ _).trans (List.sublist_append_right _ _)))
  refine ⟨opens, f :: front ++ ⟨.op op, span⟩ :: (back ++ [l]), closes, by simp,
    ⟨⟨f, rfl, ?_⟩, ⟨l, ?_, ?_⟩, htouches.nonempty⟩, fun hmatch => ?_⟩
  · rw [hspan, hstart]
  · rw [← List.cons_append, ← List.append_assoc, List.getLast?_concat]
  · rw [hspan, hstop]
  · have hleft := ha.frames.parens
    have hright := hb.frames.parens
    rw [List.map_append] at hleft hright hmatch
    unfold ParensMatch at hmatch
    rw [nestAll?_append] at hmatch
    obtain ⟨depth, hfront, hback⟩ := Option.bind_eq_some_iff.1 hmatch
    have hnone := eq_nil_of_opens (isLexeme_of_mem_map hopens) hleft hfront
    -- nothing is open behind the left operand
    rw [hnone, List.nil_append, ParensMatch, hfront] at hleft
    obtain rfl := Option.some.inj hleft
    exact ⟨List.map_eq_nil_iff.1 hnone,
      List.map_eq_nil_iff.1 (eq_nil_of_closes (isLexeme_of_mem_map hcloses) hright hback)⟩

/-- The tokens under the span of an expression: all but the parentheses at its edges. Their
parentheses match only if there are none at the edges. -/
theorem Node.exists_core (h : Node ts e) (ho : Ordered ts) :
    ∃ opens core closes, ts = opens ++ (core ++ closes) ∧ Covers core e.span ∧
      (ParensMatch (core.map Token.lexeme) → core = ts) := by
  have htouches := h.expression.touches ho
  cases h with
  | value n span =>
    exact ⟨[], _, [], rfl, ⟨⟨_, rfl, rfl⟩, ⟨_, rfl, rfl⟩, htouches.nonempty⟩, fun _ => rfl⟩
  | var name span =>
    exact ⟨[], _, [], rfl, ⟨⟨_, rfl, rfl⟩, ⟨_, rfl, rfl⟩, htouches.nonempty⟩, fun _ => rfl⟩
  | neg span ha =>
    obtain ⟨core, closes, hts, hcovers, hmatch⟩ := exists_core_neg ha ho
    refine ⟨[], core, closes, hts, hcovers, fun hcore => ?_⟩
    rw [hts, hmatch hcore, List.append_nil]
  | binary op span ha hb =>
    obtain ⟨opens, core, closes, hts, hcovers, hmatch⟩ := exists_core_binary ha hb ho
    refine ⟨opens, core, closes, hts, hcovers, fun hcore => ?_⟩
    obtain ⟨rfl, rfl⟩ := hmatch hcore
    rw [hts, List.nil_append, List.append_nil]

end Spans

end Placed

/-! ## Reading the text again -/

/-- What reading the text under the span of an expression gives under any limit of nesting that is
no less than its tokens: the expression, just if the parentheses in the text match. -/
structure Expr.ReadsBack (d : Document) (e : Expr) (us : List Token) (limit : Int) : Prop where
  reads : ParensMatch (us.map Token.lexeme) →
    ∃ e', Expr.parse (d.textAt e.span) limit = .ok e' ∧ e'.sameTree e = true
  fails : ¬ParensMatch (us.map Token.lexeme) →
    ∃ error, Expr.parse (d.textAt e.span) limit = .error (.parse error)

section ReadBack

variable {d : Document} {limit : Int} {p : Program} {e : Expr} {ts us : List Token}

theorem Expr.parse_eq {source : String} (h : tokens source = .ok ts) (limit : Int) :
    Expr.parse source limit = (Expr.ofTokens ts limit).mapError Failure.parse := by
  unfold Expr.parse readText
  rw [h]
  rfl

/-- The text under the span of an expression that stands at some of the tokens. -/
theorem Placed.Stands.readsBack (h : Placed.Stands us e) (hts : tokens d.text = .ok ts)
    (hus : us <:+: ts) :
    ∃ vs, tokens (d.textAt e.span) = .ok vs ∧
      ∀ limit : Int, vs.length ≤ limit → e.ReadsBack d vs limit := by
  obtain ⟨front, back, rfl⟩ := hus
  have ho : Ordered us := (tokens_ordered hts).sublist
    ((List.sublist_append_right front us).trans (List.sublist_append_left _ back))
  obtain ⟨opens, core, closes, rfl, hcovers, hmatch⟩ := h.node.exists_core ho
  have htokens : tokens d.text = .ok ((front ++ opens) ++ (core ++ (closes ++ back))) := by
    rw [hts]
    simp
  have hread := tokens_textAt htokens hcovers
  have hlexemes : (core.map (·.shift (-e.span.start))).map Token.lexeme =
      core.map Token.lexeme := by
    rw [List.map_map]
    rfl
  refine ⟨_, hread, fun limit hlimit => ⟨fun hparens => ?_, fun hparens => ?_⟩⟩
  · have hderives := h.derives
    rw [← hmatch (hlexemes ▸ hparens), ← hlexemes] at hderives
    obtain ⟨e', hread', hsame⟩ := Expr.ofTokens_complete hderives hlimit
    refine ⟨e', ?_, hsame⟩
    rw [Expr.parse_eq hread, hread']
    rfl
  · cases hread' : Expr.ofTokens (core.map (·.shift (-e.span.start))) limit with
    | ok a => exact absurd (Expr.ofTokens_placed hread').derives.frames.parens hparens
    | error error =>
      refine ⟨error, ?_⟩
      rw [Expr.parse_eq hread, hread']
      rfl

/-- The text under the span of every part of a program reads as this part again, just if its
parentheses match. A run that fails shows such a text. -/
theorem Program.parts_readBack (h : Program.parse d.text limit = .ok p) :
    (∀ e ∈ p.parts, ∃ us, tokens (d.textAt e.span) = .ok us ∧
      ∀ limit : Int, us.length ≤ limit → e.ReadsBack d us limit) ∧
    ∀ turns env error env', execAll turns p 0 env = .error (.error error) env' →
      ∀ fault ∈ error.fault?, ∀ span ∈ fault.span, ∃ e ∈ p.parts, e.span = span := by
  obtain ⟨ts, hts, hread⟩ := Program.parse_eq_ok.1 h
  constructor
  · intro e he
    rw [Program.parts_eq] at he
    obtain ⟨a, ha, hmem⟩ := List.mem_flatMap.1 he
    obtain ⟨us, hus, hwhole⟩ := (ofTokens_placed hread).cut.mem ha
    obtain ⟨vs, hvs, hstands⟩ := hwhole.parts_stand e hmem
    exact hstands.readsBack hts (hvs.trans hus)
  · intro turns env error env' hrun
    have hallowed := Program.exec_allowed (parse_proper h) turns env
    rw [hrun] at hallowed
    exact hallowed.1.exists_part

end ReadBack

/-- A text with an operand in parentheses at an edge of a sum, and with a product without one. -/
def cutParenthesis : Document := ⟨"(1)+2*3;", Document.defaultName⟩

def cutProduct : Expr := .binary (.value 2 ⟨4, 5⟩) .mul (.value 3 ⟨6, 7⟩) ⟨4, 7⟩

def cutSum : Expr := .binary (.value 1 ⟨1, 2⟩) .add cutProduct ⟨1, 7⟩

/-- The text under the sum is `1)+2*3`, which is no expression; that under the product is `2*3`. -/
theorem Program.parts_readBack_cutParenthesis : ∃ p,
    Program.parse cutParenthesis.text 200 = .ok p ∧ p.parts = cutSum.parts ∧
      (∃ error, Expr.parse (cutParenthesis.textAt cutSum.span) 200 = .error (.parse error)) ∧
      ∃ e', Expr.parse (cutParenthesis.textAt cutProduct.span) 200 = .ok e' ∧
        e'.sameTree cutProduct = true := by
  have hparts : (Program.parse cutParenthesis.text 200).toOption.map Program.parts =
      some cutSum.parts := by decide +kernel
  have hsum : (tokens (cutParenthesis.textAt cutSum.span)).toOption.map (·.map Token.lexeme) =
      some [.num 1, .rightParen, .op .add, .num 2, .op .mul, .num 3] := by decide +kernel
  have hproduct : (tokens (cutParenthesis.textAt cutProduct.span)).toOption.map
      (·.map Token.lexeme) = some [.num 2, .op .mul, .num 3] := by decide +kernel
  cases hp : Program.parse cutParenthesis.text 200 with
  | error e =>
    rw [hp] at hparts
    cases hparts
  | ok p =>
    rw [hp] at hparts
    have hparts : p.parts = cutSum.parts := Option.some.inj hparts
    have hread := (Program.parts_readBack hp).1
    rw [hparts] at hread
    obtain ⟨us, hus, hfails⟩ := hread cutSum List.mem_cons_self
    obtain ⟨vs, hvs, hreads⟩ := hread cutProduct (by decide)
    rw [hus] at hsum
    rw [hvs] at hproduct
    have hus : us.map Token.lexeme = _ := Option.some.inj hsum
    have hvs : vs.map Token.lexeme = _ := Option.some.inj hproduct
    have hlength : us.length = 6 ∧ vs.length = 3 := by
      have hus := congrArg List.length hus
      have hvs := congrArg List.length hvs
      rw [List.length_map] at hus hvs
      exact ⟨hus, hvs⟩
    refine ⟨p, rfl, hparts, (hfails 200 ?_).fails ?_, (hreads 200 ?_).reads ?_⟩
    · omega
    · rw [hus]
      decide
    · omega
    · rw [hvs]
      decide

end Imp32
