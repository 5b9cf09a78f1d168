import Imp32.Proofs.Reading.Placed
import Imp32.Proofs.Spans.Tokens

/-!
# Spans of nodes

Tokens stand one behind the other, and every node of a tree stands at some of them. So the span of a
node begins where a token begins and ends where one ends (`Touches`), the nodes inside it have spans
within its own, in order and apart (`Nests`), and a statement goes from the first of its tokens to
the last (`Covers`).
-/

namespace Imp32

/-- The spans of the nodes just inside an expression, in the order of the text. -/
def Expr.childSpans : Expr → List Span
  | .value _ _ | .var _ _ => []
  | .neg a _ => [a.span]
  | .binary a _ b _ => [a.span, b.span]

/-- The spans of the nodes just inside a statement, in the order of the text. -/
def Stmt.childSpans : Stmt → List Span
  | .expr e _ => [e.span]
  | .block body _ => body.map Stmt.span
  | .ifThen cond body _ => cond.span :: body.map Stmt.span
  | .whileLoop cond body _ => cond.span :: body.map Stmt.span
  | .forLoop init cond update body _ =>
    init.toList.map Expr.span ++ (cond.toList.map Expr.span ++ (update.toList.map Expr.span ++
      body.map Stmt.span))

def Span.Apart (spans : List Span) : Prop :=
  spans.Pairwise fun a b => a.stop ≤ b.start

/-- The span begins where one of the tokens begins and ends where one ends. -/
structure Touches (ts : List Token) (span : Span) : Prop where
  starts : ∃ t ∈ ts, t.span.start = span.start
  stops : ∃ t ∈ ts, t.span.stop = span.stop
  nonempty : span.start < span.stop

/-- A node with this span, and with these spans of the nodes just inside it, is in order. -/
structure Nests (ts : List Token) (span : Span) (children : List Span) : Prop where
  touches : Touches ts span
  within : ∀ c ∈ children, span.start ≤ c.start ∧ c.stop ≤ span.stop
  apart : Span.Apart children

/-- The span goes from the first of the tokens to the last. -/
structure Covers (ts : List Token) (span : Span) : Prop where
  first : ∃ t, ts.head? = some t ∧ t.span.start = span.start
  last : ∃ t, ts.getLast? = some t ∧ t.span.stop = span.stop
  nonempty : span.start < span.stop

section Touches

variable {ts us xs ys : List Token} {a b span : Span} {t : Token}

theorem Touches.mono (h : Touches ts span) (hus : ts ⊆ us) : Touches us span where
  starts := h.starts.imp fun _ => And.imp_left fun ht => hus ht
  stops := h.stops.imp fun _ => And.imp_left fun ht => hus ht
  nonempty := h.nonempty

theorem touches_token (ht : t ∈ ts) (ho : Ordered ts) : Touches ts t.span :=
  ⟨⟨t, ht, rfl⟩, ⟨t, ht, rfl⟩, ho.nonempty t ht⟩

theorem Touches.stop_le_start (ho : Ordered (xs ++ ys)) (ha : Touches xs a) (hb : Touches ys b) :
    a.stop ≤ b.start := by
  obtain ⟨t, ht, hstop⟩ := ha.stops
  obtain ⟨u, hu, hstart⟩ := hb.starts
  rw [← hstop, ← hstart]
  exact ho.stop_le_start ht hu

/-- Spans that stand one behind the other are joined from the start of the first to the end of the
second. -/
theorem Touches.join_eq (ho : Ordered (xs ++ ys)) (ha : Touches xs a) (hb : Touches ys b) :
    a.join b = ⟨a.start, b.stop⟩ := by
  have hapart := ha.stop_le_start ho hb
  have hna := ha.nonempty
  have hnb := hb.nonempty
  simp only [Span.join, Span.mk.injEq]
  omega

theorem Touches.join (ho : Ordered (xs ++ ys)) (ha : Touches xs a) (hb : Touches ys b) :
    Touches (xs ++ ys) (a.join b) := by
  have hapart := ha.stop_le_start ho hb
  have hna := ha.nonempty
  have hnb := hb.nonempty
  rw [ha.join_eq ho hb]
  refine ⟨(ha.mono (List.subset_append_left xs ys)).starts,
    (hb.mono (List.subset_append_right xs ys)).stops, ?_⟩
  show a.start < b.stop
  omega

theorem Span.le_join_left (a b : Span) :
    (a.join b).start ≤ a.start ∧ a.stop ≤ (a.join b).stop := by
  simp only [Span.join]
  omega

theorem Span.le_join_right (a b : Span) :
    (a.join b).start ≤ b.start ∧ b.stop ≤ (a.join b).stop := by
  rw [Span.join_comm]
  exact Span.le_join_left b a

theorem Nests.mono {children : List Span} (h : Nests ts span children) (hus : ts ⊆ us) :
    Nests us span children :=
  ⟨h.touches.mono hus, h.within, h.apart⟩

theorem Covers.touches (h : Covers ts span) : Touches ts span where
  starts := h.first.imp fun _ => And.imp_left List.mem_of_head?
  stops := h.last.imp fun _ => And.imp_left List.mem_of_getLast?
  nonempty := h.nonempty

/-- A token and what touches the tokens behind it, up to the last of them. -/
theorem covers_join (ho : Ordered (t :: ts)) (hb : Touches ts b)
    (hlast : ∃ u, ts.getLast? = some u ∧ u.span.stop = b.stop) :
    Covers (t :: ts) (t.span.join b) := by
  have ht : Touches [t] t.span :=
    touches_token List.mem_cons_self (ho.sublist (List.singleton_sublist.2 List.mem_cons_self))
  have ho' : Ordered ([t] ++ ts) := ho
  have hjoin := ht.join ho' hb
  rw [ht.join_eq ho' hb] at hjoin ⊢
  obtain ⟨u, hu, hstop⟩ := hlast
  exact ⟨⟨t, rfl, rfl⟩, ⟨u, by rw [List.getLast?_cons, hu]; rfl, hstop⟩, hjoin.nonempty⟩

/-- What goes from the first token to the last has everything within it. -/
theorem Covers.within (h : Covers ts span) (ho : Ordered ts) (hc : Touches ts a) :
    span.start ≤ a.start ∧ a.stop ≤ span.stop := by
  obtain ⟨f, hf, hstart⟩ := h.first
  obtain ⟨l, hl, hstop⟩ := h.last
  obtain ⟨r, rfl⟩ := List.head?_eq_some_iff.1 hf
  obtain ⟨u, hu, hus⟩ := hc.starts
  obtain ⟨v, hv, hvs⟩ := hc.stops
  have hfirst : f.span.start ≤ u.span.start := by
    have hnonempty := ho.nonempty f List.mem_cons_self
    rcases List.mem_cons.1 hu with rfl | hu
    · exact Int.le_refl _
    · have := (List.pairwise_cons.1 ho.apart).1 u hu
      omega
  have hlast : v.span.stop ≤ l.span.stop := by
    obtain ⟨q, hq⟩ := List.getLast?_eq_some_iff.1 hl
    rw [hq] at hv ho
    have hnonempty := ho.nonempty l (by simp)
    rcases List.mem_append.1 hv with hv | hv
    · have := ho.stop_le_start hv (List.mem_singleton_self l)
      omega
    · exact List.mem_singleton.1 hv ▸ Int.le_refl _
  omega

end Touches

/-! ## Rows of spans -/

/-- Spans at the tokens, one behind the other. -/
structure Row (ts : List Token) (spans : List Span) : Prop where
  touches : ∀ c ∈ spans, Touches ts c
  apart : Span.Apart spans

namespace Row

variable {ts us xs ys : List Token} {as bs : List Span} {a : Span}

theorem nil (ts : List Token) : Row ts [] := ⟨nofun, .nil⟩

theorem single (h : Touches ts a) : Row ts [a] :=
  ⟨List.forall_mem_singleton.2 h, List.pairwise_singleton _ _⟩

theorem mono (h : Row ts as) (hus : ts ⊆ us) : Row us as :=
  ⟨fun c hc => (h.touches c hc).mono hus, h.apart⟩

theorem append (ho : Ordered (xs ++ ys)) (ha : Row xs as) (hb : Row ys bs) :
    Row (xs ++ ys) (as ++ bs) where
  touches := List.forall_mem_append.2 ⟨(ha.mono (List.subset_append_left xs ys)).touches,
    (hb.mono (List.subset_append_right xs ys)).touches⟩
  apart := List.pairwise_append.2 ⟨ha.apart, hb.apart, fun c hc d hd =>
    (ha.touches c hc).stop_le_start ho (hb.touches d hd)⟩

end Row

/-! ## Nodes -/

namespace Placed

theorem Expression.touches {ts : List Token} {e : Expr} (h : Expression ts e) (ho : Ordered ts) :
    Touches ts e.span := by
  induction h with
  | value n span => exact touches_token List.mem_cons_self ho
  | var name span => exact touches_token List.mem_cons_self ho
  | @neg ts a span _ ih =>
    have hsign := touches_token (t := ⟨.op .sub, span⟩) List.mem_cons_self
      (ho.sublist (List.singleton_sublist.2 List.mem_cons_self))
    have ho' : Ordered ([⟨.op .sub, span⟩] ++ ts) := ho
    exact hsign.join ho' (ih (ho.sublist (List.sublist_cons_self _ _)))
  | @binary xs ys a b op span _ _ iha ihb =>
    have hb := ihb (ho.sublist ((List.sublist_cons_self _ _).trans (List.sublist_append_right _ _)))
    exact (iha (ho.sublist (List.sublist_append_left _ _))).join ho
      (hb.mono (List.subset_cons_self _ _))
  | @paren ts e o c _ ih =>
    have hts : ts.Sublist (⟨.leftParen, o⟩ :: ts ++ [⟨.rightParen, c⟩]) :=
      (List.sublist_cons_self _ _).trans (List.sublist_append_left _ _)
    exact (ih (ho.sublist hts)).mono hts.subset

/-- Every expression inside an expression is in order. -/
theorem Expression.nests {ts : List Token} {e : Expr} (h : Expression ts e) (ho : Ordered ts) :
    ∀ a ∈ e.parts, Nests ts a.span a.childSpans := by
  have htouches := h.touches ho
  induction h with
  | value n span => exact List.forall_mem_singleton.2 ⟨htouches, nofun, .nil⟩
  | var name span => exact List.forall_mem_singleton.2 ⟨htouches, nofun, .nil⟩
  | @neg ts a span ha ih =>
    have hts : ts.Sublist (⟨.op .sub, span⟩ :: ts) := List.sublist_cons_self _ _
    refine List.forall_mem_cons.2 ⟨⟨htouches, ?_, List.pairwise_singleton _ _⟩, fun b hb => ?_⟩
    · exact List.forall_mem_singleton.2 (Span.le_join_right _ _)
    · exact (ih (ho.sublist hts) (ha.touches (ho.sublist hts)) b hb).mono hts.subset
  | @binary xs ys a b op span ha hb iha ihb =>
    have hxs : xs.Sublist (xs ++ ⟨.op op, span⟩ :: ys) := List.sublist_append_left _ _
    have hys : ys.Sublist (xs ++ ⟨.op op, span⟩ :: ys) :=
      (List.sublist_cons_self _ _).trans (List.sublist_append_right _ _)
    have hta := ha.touches (ho.sublist hxs)
    have htb := hb.touches (ho.sublist hys)
    refine List.forall_mem_cons.2 ⟨⟨htouches, ?_, ?_⟩, List.forall_mem_append.2
      ⟨fun c hc => ?_, fun c hc => ?_⟩⟩
    · exact List.forall_mem_cons.2 ⟨Span.le_join_left _ _,
        List.forall_mem_singleton.2 (Span.le_join_right _ _)⟩
    · exact List.pairwise_pair.2 (hta.stop_le_start ho (htb.mono (List.subset_cons_self _ _)))
    · exact (iha (ho.sublist hxs) hta c hc).mono hxs.subset
    · exact (ihb (ho.sublist hys) htb c hc).mono hys.subset
  | @paren ts e o c he ih =>
    have hts : ts.Sublist (⟨.leftParen, o⟩ :: ts ++ [⟨.rightParen, c⟩]) :=
      (List.sublist_cons_self _ _).trans (List.sublist_append_left _ _)
    have hte := he.touches (ho.sublist hts)
    exact fun a ha => (ih (ho.sublist hts) hte a ha).mono hts.subset

theorem Clause.row {ts : List Token} {e : Option Expr} (h : Clause ts e) (ho : Ordered ts) :
    Row ts (e.toList.map Expr.span) := by
  cases h with
  | absent => exact .nil _
  | present h => exact .single (h.placed.touches ho)

theorem Block.covers {ts : List Token} {body : List Stmt} {span : Span} (h : Block ts body span)
    (ho : Ordered ts) : Covers ts span := by
  cases h with
  | @braces us _ o c h =>
    have hclose : Touches (us ++ [⟨.rightBrace, c⟩]) c := touches_token (t := ⟨.rightBrace, c⟩)
      (by simp) (ho.sublist (List.sublist_cons_self _ _))
    exact covers_join ho hclose ⟨_, List.getLast?_concat, rfl⟩

/-- A keyword and a block with something between them. -/
theorem covers_block {t : Token} {ts bs : List Token} {body : List Stmt} {bspan : Span}
    (hb : Block bs body bspan) (ho : Ordered (t :: (ts ++ bs))) :
    Covers (t :: (ts ++ bs)) (t.span.join bspan) := by
  have hcovers := hb.covers
    (ho.sublist ((List.sublist_append_right ts bs).trans (List.sublist_cons_self _ _)))
  obtain ⟨u, hu, hstop⟩ := hcovers.last
  refine covers_join ho (hcovers.touches.mono (List.subset_append_right ts bs)) ⟨u, ?_, hstop⟩
  rw [List.getLast?_append, hu]
  rfl

/-- A statement goes from its first token to its last. -/
theorem Statement.covers {ts : List Token} {s : Stmt} (h : Statement ts s) (ho : Ordered ts) :
    Covers ts s.span := by
  cases h with
  | ifThen span o c _ hb =>
    rw [List.append_cons] at ho ⊢
    exact covers_block hb ho
  | whileLoop span o c _ hb =>
    rw [List.append_cons] at ho ⊢
    exact covers_block hb ho
  | forLoop span o c₁ c₂ c₃ _ _ _ hb =>
    rw [List.append_cons] at ho ⊢
    exact covers_block hb ho
  | block hb => exact hb.covers ho
  | @expr t us e c he =>
    have hclose : Touches (us ++ [⟨.semicolon, c⟩]) c := touches_token (t := ⟨.semicolon, c⟩)
      (by simp) (ho.sublist (List.sublist_cons_self _ _))
    exact covers_join ho hclose ⟨_, List.getLast?_concat, rfl⟩

/-- Statements in order have spans in order. -/
theorem Statements.row {p : List Stmt} : ∀ {ts : List Token}, Statements ts p → Ordered ts →
    Row ts (p.map Stmt.span) := by
  induction p with
  | nil =>
    intro ts h _
    cases h
    exact .nil _
  | cons s rest ih =>
    intro ts h ho
    obtain _ | ⟨hs, hrest⟩ := h
    exact (Row.single (hs.covers (ho.sublist (List.sublist_append_left _ _))).touches).append ho
      (ih hrest (ho.sublist (List.sublist_append_right _ _)))

theorem Block.row {ts : List Token} {body : List Stmt} {span : Span} (h : Block ts body span)
    (ho : Ordered ts) : Row ts (body.map Stmt.span) := by
  cases h with
  | @braces us _ o c h =>
    have hus : us.Sublist (⟨.leftBrace, o⟩ :: us ++ [⟨.rightBrace, c⟩]) :=
      (List.sublist_cons_self _ _).trans (List.sublist_append_left _ _)
    exact (h.row (ho.sublist hus)).mono hus.subset

/-- The nodes just inside a statement stand one behind the other. -/
theorem Statement.row {ts : List Token} {s : Stmt} (h : Statement ts s) (ho : Ordered ts) :
    Row ts s.childSpans := by
  have cons : ∀ {t : Token} {us : List Token} {as : List Span}, (Ordered us → Row us as) →
      Ordered (t :: us) → Row (t :: us) as := fun h ho =>
    (h (ho.sublist (List.sublist_cons_self _ _))).mono (List.subset_cons_self _ _)
  have append : ∀ {us vs : List Token} {as bs : List Span}, (Ordered us → Row us as) →
      (Ordered vs → Row vs bs) → Ordered (us ++ vs) → Row (us ++ vs) (as ++ bs) := fun hu hv ho =>
    (hu (ho.sublist (List.sublist_append_left _ _))).append ho
      (hv (ho.sublist (List.sublist_append_right _ _)))
  cases h with
  | ifThen span o c hcond hb =>
    exact append (cons (cons fun ho => .single (hcond.placed.touches ho))) (cons hb.row) ho
  | whileLoop span o c hcond hb =>
    exact append (cons (cons fun ho => .single (hcond.placed.touches ho))) (cons hb.row) ho
  | forLoop span o c₁ c₂ c₃ hi hc hu hb =>
    rw [List.append_assoc, List.append_assoc] at ho ⊢
    exact append (cons (cons hi.row)) (append (cons hc.row) (append (cons hu.row) (cons hb.row))) ho
  | block hb => exact hb.row ho
  | @expr t us e c he =>
    exact append (fun ho => .single (he.placed.touches ho)) (fun _ => .nil _) ho

theorem Statement.nests {ts : List Token} {s : Stmt} (h : Statement ts s) (ho : Ordered ts) :
    Nests ts s.span s.childSpans :=
  ⟨(h.covers ho).touches, fun c hc => (h.covers ho).within ho ((h.row ho).touches c hc),
    (h.row ho).apart⟩

end Placed

end Imp32
