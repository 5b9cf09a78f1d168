import Imp32.Proofs.Parentheses
import Imp32.Proofs.Reading.Placed

/-!
# The tokens of the parts of an expression

Every part of an expression that is derived from its tokens is derived from some of them, which
follow each other and are not in parentheses of their own (`Whole.parts_stand`). The tokens of an
operand are found by counting: the parentheses of an expression match, and its other tokens are as
many as its parts (`Frames`), so an operator can be the one between two operands at one place only.
-/

namespace Imp32

open Grammar

/-! ## Counting -/

section Frames

variable {l : Lexeme} {xs ys ls : List Lexeme} {a e : Expr}

theorem Placed.Expression.frames {ts : List Token} (h : Placed.Expression ts e) :
    Frames (ts.map Token.lexeme) e := by
  induction h with
  | value => exact frames_single rfl rfl
  | var => exact frames_single rfl rfl
  | neg _ _ ih => exact ih.neg
  | binary _ _ _ _ iha ihb =>
    rw [List.map_append]
    exact iha.binary ihb
  | paren _ _ _ ih =>
    rw [List.map_append]
    exact ih.paren

/-- Two lists are cut at the same place if as many lexemes other than parentheses stand in front of
it. -/
theorem append_cons_inj {xs' ys' : List Lexeme} {l' : Lexeme}
    (h : xs ++ l :: ys = xs' ++ l' :: ys') (hl : l.isParen = false) (hl' : l'.isParen = false)
    (hcount : xs.countP (!·.isParen) = xs'.countP (!·.isParen)) : xs = xs' ∧ ys = ys' := by
  have cut : ∀ {xs xs' zs ys ys' : List Lexeme} {l l' : Lexeme}, xs' = xs ++ zs →
      l :: ys = zs ++ l' :: ys' → l.isParen = false →
        xs.countP (!·.isParen) = xs'.countP (!·.isParen) → xs = xs' ∧ ys = ys' := by
    rintro xs xs' zs ys ys' l l' rfl hrest hl hcount
    cases zs with
    | nil =>
      cases hrest
      exact ⟨(List.append_nil xs).symm, rfl⟩
    | cons z zs =>
      cases hrest
      rw [List.countP_append, List.countP_cons_of_pos (by simp [hl])] at hcount
      omega
  obtain ⟨zs, hxs, hrest⟩ | ⟨zs, hxs, hrest⟩ := List.append_eq_append_iff.1 h
  · exact cut hxs hrest hl hcount
  · exact (cut hxs hrest hl' hcount.symm).imp Eq.symm Eq.symm

/-- An operator between operands is not inside parentheses around them. -/
theorem append_cons_ne_paren (hl : l.isParen = false) (hx : Frames xs a) (hls : ParensMatch ls) :
    xs ++ l :: ys ≠ .leftParen :: ls ++ [.rightParen] := by
  intro h
  obtain ⟨x, zs, rfl⟩ := List.exists_cons_of_ne_nil hx.ne_nil
  obtain ⟨rfl, hrest⟩ := List.cons.inj h
  have hrest : zs ++ l :: ys = ls ++ [.rightParen] := hrest
  obtain ⟨as, rfl, -⟩ | ⟨bs, -, hend⟩ := List.append_eq_append_iff.1 hrest
  · exact not_parensMatch_cons hls hx.parens
  · cases bs with
    | nil =>
      cases hend
      cases hl
    | cons b bs => cases bs <;> cases hend

end Frames

/-! ## Parts -/

namespace Placed

/-- The expression stands at the tokens, without parentheses around it. -/
inductive Node : List Token → Expr → Prop
  | value (n : Int) (span : Span) : Node [⟨.num n, span⟩] (.value n span)
  | var (name : String) (span : Span) : Node [⟨.ident name, span⟩] (.var name span)
  | neg {ts : List Token} {a : Expr} (span : Span) :
    Expression ts a → Node (⟨.op .sub, span⟩ :: ts) (.neg a (span.join a.span))
  | binary {xs ys : List Token} {a b : Expr} (op : BinaryOp) (span : Span) :
    Expression xs a → Expression ys b →
      Node (xs ++ ⟨.op op, span⟩ :: ys) (.binary a op b (a.span.join b.span))

theorem Node.expression {ts : List Token} {e : Expr} (h : Node ts e) : Expression ts e := by
  cases h with
  | value n span => exact .value n span
  | var name span => exact .var name span
  | neg span ha => exact .neg span ha
  | binary op span ha hb => exact .binary op span ha hb

/-- The tokens derive the expression, which stands at them without parentheses around it. -/
structure Stands (ts : List Token) (e : Expr) : Prop where
  derives : Derives .expr (ts.map Token.lexeme) e
  node : Node ts e

/-- Every part of the expression stands at some of the tokens, which follow each other. -/
def PartsStand (ts : List Token) (e : Expr) : Prop :=
  ∀ a ∈ e.parts, ∃ us, us <:+: ts ∧ Stands us a

section Parts

variable {ts us : List Token} {xs ys ls : List Lexeme} {a b e : Expr} {op : BinaryOp}
  {span : Span} {c : Category}

theorem PartsStand.mono (h : PartsStand ts e) (hts : ts <:+: us) : PartsStand us e := fun a ha => by
  obtain ⟨vs, hvs, hstands⟩ := h a ha
  exact ⟨vs, hvs.trans hts, hstands⟩

theorem derives_whole (h : Derives c ls e) : Derives .expr ls e :=
  h.loosen (Nat.zero_le _)

/-- The operands of an operator stand at the tokens on both sides of it. -/
theorem exists_operands (hts : ts.map Token.lexeme = xs ++ .op op :: ys) (hx : Frames xs a)
    (h : Expression ts (.binary a op b span)) :
    ∃ us vs place, ts = us ++ ⟨.op op, place⟩ :: vs ∧ us.map Token.lexeme = xs ∧
      vs.map Token.lexeme = ys ∧ Expression us a ∧ Expression vs b ∧
        span = a.span.join b.span := by
  cases h with
  | @binary us vs _ _ _ place ha hb =>
    rw [List.map_append] at hts
    obtain ⟨hus, hvs⟩ := append_cons_inj hts rfl rfl (ha.frames.count.trans hx.count.symm)
    exact ⟨us, vs, place, rfl, hus, hvs, ha, hb, rfl⟩
  | paren o c he =>
    rw [List.map_append] at hts
    exact absurd hts.symm (append_cons_ne_paren rfl hx he.frames.parens)

theorem partsStand_binary (hd : Derives c (xs ++ .op op :: ys) (.binary a op b span))
    (hx : Frames xs a)
    (ha : ∀ us, us.map Token.lexeme = xs → Expression us a → PartsStand us a)
    (hb : ∀ vs, vs.map Token.lexeme = ys → Expression vs b → PartsStand vs b)
    (hts : ts.map Token.lexeme = xs ++ .op op :: ys) (h : Expression ts (.binary a op b span)) :
    PartsStand ts (.binary a op b span) := by
  obtain ⟨us, vs, place, rfl, hus, hvs, hplaced, hplaced', rfl⟩ := exists_operands hts hx h
  refine List.forall_mem_cons.2 ⟨⟨_, List.infix_refl _, hts ▸ derives_whole hd,
    .binary op place hplaced hplaced'⟩, List.forall_mem_append.2 ⟨?_, ?_⟩⟩
  · exact (ha us hus hplaced).mono (List.prefix_append _ _).isInfix
  · exact (hb vs hvs hplaced').mono
      ((List.suffix_cons _ _).trans (List.suffix_append _ _)).isInfix

/-- A name stands at its token, inside all parentheses. -/
theorem partsStand_var {name : String} (h : Expression ts (.var name span)) :
    PartsStand ts (.var name span) := by
  generalize he : Expr.var name span = e at h
  induction h with
  | var x place =>
    exact List.forall_mem_singleton.2 ⟨_, List.infix_refl _, derives_whole (.ident x place),
      .var x place⟩
  | paren o c _ ih => exact (ih he).mono ⟨[_], [_], rfl⟩
  | _ => cases he

theorem partsStand_of_derives (h : Derives c ls e) :
    ∀ ts, ts.map Token.lexeme = ls → Expression ts e → PartsStand ts e := by
  induction h with
  | assign span hx hy ih =>
    intro ts hts hplaced
    obtain ⟨name, place, rfl⟩ := hx.exists_var
    exact partsStand_binary (.assign span hx hy) hx.frames (fun _ _ => partsStand_var) ih hts
      hplaced
  | infixLeft span hop hx hy iha ihb =>
    exact fun ts => partsStand_binary (.infixLeft span hop hx hy) hx.frames iha ihb
  | pow span hx hy iha ihb =>
    exact fun ts => partsStand_binary (.pow span hx hy) hx.frames iha ihb
  | neg span hd ih =>
    intro ts hts hplaced
    cases hplaced with
    | neg place ha =>
      refine List.forall_mem_cons.2 ⟨⟨_, List.infix_refl _, hts ▸ derives_whole (.neg _ hd),
        .neg place ha⟩, ?_⟩
      exact (ih _ (List.cons.inj hts).2 ha).mono (List.suffix_cons _ _).isInfix
    | paren => cases hts
  | num n span =>
    intro ts hts hplaced
    cases hplaced with
    | value => exact List.forall_mem_singleton.2 ⟨_, List.infix_refl _, derives_whole (.num n span),
        .value n span⟩
    | paren => cases hts
  | ident name span => exact fun ts _ => partsStand_var
  | @paren ls e hd ih =>
    intro ts hts hplaced
    cases hplaced with
    | paren o c he =>
      rw [List.map_append] at hts
      have hls := List.append_cancel_right hts
      exact (ih _ (List.cons.inj hls).2 he).mono ⟨[_], [_], rfl⟩
    | binary op place ha hb =>
      rw [List.map_append] at hts
      exact absurd hts (append_cons_ne_paren rfl ha.frames hd.frames.parens)
    | _ => cases hts
  | tighter _ ih => exact ih

/-- Every part of an expression stands at some of its tokens. -/
theorem Whole.parts_stand (h : Whole ts e) : PartsStand ts e :=
  partsStand_of_derives h.derives ts rfl h.placed

end Parts

end Placed

end Imp32
