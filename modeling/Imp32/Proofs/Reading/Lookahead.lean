import Imp32.Proofs.Grammar.Climbing

/-!
# How far a reader looks

A reader looks at the tokens that it takes and at the next one. So it comes to the same result on
any other tokens that begin alike, if it came to it before they differ, and if there is no less room
for levels (`Local`). The readers are put together with `Local.bind`; what carries it is that no
reader goes back.
-/

namespace Imp32

/-- The number of tokens that have been passed since the place of an error. The sign of an
assignment has been passed when its target turns out to be none. -/
def ParseError.passed : ParseError → Nat
  | .invalidAssignmentTarget _ => 1
  | _ => 0

/-- The number of tokens in front of the place of an error. -/
def ParseError.place (e : ParseError) (s : TokenCursor) : Nat :=
  s.read - e.passed

def ParseError.IsTooDeep : ParseError → Prop
  | .nestingTooDeep _ _ | .nestingTooDeepAtNothing => True
  | _ => False

theorem TokenCursor.isTooDeep_tooDeep (s : TokenCursor) : s.tooDeep.IsTooDeep := by
  unfold TokenCursor.tooDeep
  split <;> trivial

/-- The cursors have read equally many tokens, and the next are the same up to the first `n`. -/
structure Agree (n : Nat) (s t : TokenCursor) : Prop where
  read : t.read = s.read
  rest : t.rest.take (n - s.read) = s.rest.take (n - s.read)

namespace Agree

variable {n : Nat} {s t : TokenCursor}

theorem refl (n : Nat) (s : TokenCursor) : Agree n s s := ⟨rfl, rfl⟩

theorem head (h : Agree n s t) (hn : s.read < n) : t.rest.head? = s.rest.head? := by
  have hpos : n - s.read ≠ 0 := by omega
  simpa [List.head?_take, hpos] using congrArg List.head? h.rest

theorem pass (h : Agree n s t) : Agree n s.pass t.pass where
  read := congrArg (· + 1) h.read
  rest := by
    show t.rest.tail.take (n - (s.read + 1)) = s.rest.tail.take (n - (s.read + 1))
    simpa [List.drop_take, Nat.sub_sub] using congrArg (List.drop 1) h.rest

/-- Levels do not matter. -/
theorem atDepth (h : Agree n s t) (d d' : Nat) :
    Agree n { s with depth := d } { t with depth := d' } := ⟨h.read, h.rest⟩

end Agree

section Results

variable {α : Type}

/-- The number of tokens in front of the place where a result was come to. -/
def reach : EStateM.Result ParseError TokenCursor α → Nat
  | .ok _ s => s.read
  | .error e s => e.place s

/-- The results are the same, unless the first came of too little room. -/
def SameResult (n : Nat) (x y : EStateM.Result ParseError TokenCursor α) : Prop :=
  match x with
  | .ok a s => ∃ t, y = .ok a t ∧ Agree n s t
  | .error e s => ¬e.IsTooDeep → ∃ t, y = .error e t ∧ t.read = s.read

/-- The first result is not before the cursor, and is the second one if it is within the first `n`
tokens. -/
structure Alike (n : Nat) (s : TokenCursor) (x y : EStateM.Result ParseError TokenCursor α) :
    Prop where
  forward : s.read ≤ reach x
  same : reach x < n → SameResult n x y

end Results

namespace TokenReader

variable {α β : Type} {n : Nat} {s t : TokenCursor}

def Forward (x : TokenReader α) : Prop := ∀ s, s.read ≤ reach (x s)

theorem Forward.bind {x : TokenReader α} {f : α → TokenReader β} (hx : Forward x)
    (hf : ∀ a, Forward (f a)) : Forward (x >>= f) := by
  intro s
  have hle := hx s
  cases hxs : x s with
  | error e s' =>
    rw [hxs] at hle
    rw [bind_of_error hxs]
    exact hle
  | ok a s' =>
    rw [hxs] at hle
    rw [bind_of_ok hxs]
    exact Nat.le_trans hle (hf a s')

/-- The second reader does on every list of tokens what the first does on those that begin alike. -/
def Local (n : Nat) (x y : TokenReader α) : Prop := ∀ s t, Agree n s t → Alike n s (x s) (y t)

namespace Local

variable {x y : TokenReader α} {f g : α → TokenReader β}

theorem pure (a : α) : Local n (pure a : TokenReader α) (pure a) :=
  fun s t h => ⟨Nat.le_refl s.read, fun _ => ⟨t, rfl, h⟩⟩

theorem throw {e : ParseError} (he : ∀ s, e.place s = s.read) :
    Local n (throw e : TokenReader α) (throw e) :=
  fun s t h => ⟨Nat.le_of_eq (he s).symm, fun _ _ => ⟨t, rfl, h.read⟩⟩

/-- What follows goes forward, and is alike where both first actions succeed. -/
theorem bind_of (hx : Local n x y) (h : Agree n s t)
    (hforward : ∀ a s', x s = .ok a s' → s'.read ≤ reach (f a s'))
    (hf : ∀ a s' t', x s = .ok a s' → y t = .ok a t' → Agree n s' t' →
      Alike n s' (f a s') (g a t')) :
    Alike n s ((x >>= f) s) ((y >>= g) t) := by
  obtain ⟨hle, hsame⟩ := hx s t h
  cases hxs : x s with
  | error e s' =>
    rw [hxs] at hle hsame
    rw [bind_of_error hxs]
    refine ⟨hle, fun hn he => ?_⟩
    obtain ⟨t', ht', hread⟩ := hsame hn he
    exact ⟨t', bind_of_error ht', hread⟩
  | ok a s' =>
    rw [hxs] at hle hsame
    rw [bind_of_ok hxs]
    have hback := hforward a s' hxs
    refine ⟨Nat.le_trans hle hback, fun hn => ?_⟩
    obtain ⟨t', ht', hagree⟩ := hsame (Nat.lt_of_le_of_lt hback hn)
    rw [bind_of_ok ht']
    exact (hf a s' t' hxs ht' hagree).same hn

theorem bind (hx : Local n x y) (hf : ∀ a, Local n (f a) (g a)) : Local n (x >>= f) (y >>= g) :=
  fun _ _ h => bind_of hx h (fun a s' _ => (hf a s' s' (.refl n s')).forward)
    fun a s' t' _ _ h' => hf a s' t' h'

theorem forward (h : Local n x y) : Forward x := fun s => (h s s (.refl n s)).forward

theorem refuse {y : TokenReader α} : Local n (refuse : TokenReader α) y := by
  intro s t _
  have hplace : ∀ s' : TokenCursor, s.tooDeep.place s' = s'.read := by
    intro s'
    unfold TokenCursor.tooDeep
    split <;> rfl
  exact ⟨Nat.le_of_eq (hplace _).symm, fun _ he => absurd s.isTooDeep_tooDeep he⟩

theorem deeper (h : Local n x y) : Local n (deeper x) (deeper y) := by
  intro s t hagree
  obtain ⟨hle, hsame⟩ := h _ _ (hagree.atDepth (s.depth + 1) (t.depth + 1))
  unfold TokenReader.deeper
  cases hx : x { s with depth := s.depth + 1 } with
  | ok a s' =>
    rw [hx] at hle hsame
    refine ⟨hle, fun hn => ?_⟩
    obtain ⟨t', ht', h'⟩ := hsame hn
    rw [ht']
    exact ⟨_, rfl, h'.atDepth _ _⟩
  | error e s' =>
    rw [hx] at hle hsame
    refine ⟨hle, fun hn he => ?_⟩
    obtain ⟨t', ht', hread⟩ := hsame hn he
    rw [ht']
    exact ⟨_, rfl, hread⟩

theorem peek : Local n peek peek :=
  fun s t h => ⟨Nat.le_refl s.read, fun hn => ⟨t, congrArg (EStateM.Result.ok · t) (h.head hn), h⟩⟩

theorem pass : Local n pass pass :=
  fun s t h => ⟨Nat.le_succ s.read, fun _ => ⟨t.pass, rfl, h.pass⟩⟩

theorem current : Local n current current :=
  peek.bind fun t => by
    cases t with
    | some t => exact .pure t
    | none => exact .throw fun _ => rfl

theorem expect (lexeme : Lexeme) : Local n (expect lexeme) (expect lexeme) :=
  current.bind fun t => by
    show Local n (ite _ _ _) (ite _ _ _)
    split
    · exact pass.bind fun _ => .pure t
    · exact .throw fun _ => rfl

end Local

/-! ## Expressions -/

section Expressions

variable {inner inner' : Nat → TokenReader Expr}

theorem Local.operand (h : ∀ least, Local n (inner least) (inner' least)) :
    Local n (operand inner) (operand inner') := by
  refine Local.current.bind fun t => ?_
  obtain ⟨lexeme, span⟩ := t
  cases lexeme with
  | num n => exact Local.pass.bind fun _ => .pure _
  | ident name => exact Local.pass.bind fun _ => .pure _
  | op op =>
    cases op with
    | sub => exact Local.pass.bind fun _ => (h _).bind fun _ => .pure _
    | _ => exact .throw fun _ => rfl
  | leftParen =>
    refine Local.pass.bind fun _ => (h _).bind fun e => Local.peek.bind fun t => ?_
    split
    · exact Local.pass.bind fun _ => .pure e
    · exact .throw fun _ => rfl
  | _ => exact .throw fun _ => rfl

/-- The next token decides whether the operators end. -/
theorem stops_congr {least : Nat} {rest rest' : List Token} (h : rest'.head? = rest.head?)
    (hstop : Stops least rest) : Stops least rest' := by
  rintro op span r rfl
  obtain ⟨r', hr'⟩ : ∃ r', rest = ⟨.op op, span⟩ :: r' := List.head?_eq_some_iff.1 h.symm
  exact hstop op span r' hr'

theorem operators_forward (hlocal : ∀ least, Local n (inner least) (inner' least)) {least : Nat} :
    ∀ (count : List Token) (s : TokenCursor) (lhs : Expr),
      s.read ≤ reach (operators inner least count lhs s) := by
  intro count
  induction count with
  | nil => exact fun s lhs => Nat.le_refl s.read
  | cons k count ih =>
    intro s lhs
    by_cases hstop : Stops least s.rest
    · rw [operators_of_stops _ hstop]
      exact Nat.le_refl s.read
    · obtain ⟨op, span, r, hr, hprec⟩ := exists_op_of_not_stops hstop
      rw [operators_of_op k count hr hprec]
      split
      · exact Nat.le_trans (Nat.le_succ s.read)
          ((hlocal _).forward.bind (fun rhs s' => ih s' _) s.pass)
      · exact Nat.le_refl s.read

/-- The operator loop is local; neither count is a bound. -/
theorem Local.operators (hlocal : ∀ least, Local n (inner least) (inner' least))
    (hinner : Sound inner) (hinner' : Sound inner') {least : Nat} :
    ∀ (count count' : List Token) (s t : TokenCursor) (lhs : Expr), Agree n s t →
      s.rest.length ≤ count.length → t.rest.length ≤ count'.length →
      Alike n s (operators inner least count lhs s) (operators inner' least count' lhs t) := by
  intro count
  induction count with
  | nil =>
    intro count' s t lhs h hlen _
    have hr : s.rest = [] := List.eq_nil_of_length_eq_zero (Nat.le_zero.1 hlen)
    refine ⟨operators_forward hlocal _ s lhs, fun hn => ⟨t, ?_, h⟩⟩
    exact operators_of_stops _ (stops_congr (h.head hn) (hr ▸ stops_nil least))
  | cons k count ih =>
    intro count' s t lhs h hlen hlen'
    refine ⟨operators_forward hlocal _ s lhs, fun hn => ?_⟩
    have hn' : s.read < n := Nat.lt_of_le_of_lt (operators_forward hlocal _ s lhs) hn
    by_cases hstop : Stops least s.rest
    · rw [operators_of_stops _ hstop, operators_of_stops _ (stops_congr (h.head hn') hstop)]
      exact ⟨t, rfl, h⟩
    · obtain ⟨op, span, r, hr, hprec⟩ := exists_op_of_not_stops hstop
      obtain ⟨r', hr'⟩ : ∃ r', t.rest = ⟨.op op, span⟩ :: r' :=
        List.head?_eq_some_iff.1 ((h.head hn').trans (by rw [hr]; rfl))
      cases count' with
      | nil => simp [hr'] at hlen'
      | cons k' count' =>
        rw [operators_of_op k count hr hprec] at hn ⊢
        rw [operators_of_op k' count' hr' hprec]
        split
        · rename_i haccepts
          rw [if_pos haccepts] at hn
          refine (bind_of (hlocal _) h.pass (fun _ s' _ => operators_forward hlocal _ s' _)
            fun rhs s' t' hs' ht' h' => ?_).same hn
          have hle := hinner.length_le hs'
          have hle' := hinner'.length_le ht'
          rw [TokenCursor.rest_pass, hr] at hle
          rw [TokenCursor.rest_pass, hr'] at hle'
          rw [hr] at hlen
          rw [hr'] at hlen'
          simp only [List.length_cons, List.tail_cons] at hle hle' hlen hlen'
          exact ih count' s' t' _ h' (by omega) (by omega)
        · exact fun _ => ⟨t.pass, rfl, h.pass.read⟩

theorem Local.expression {room room' : Nat} (hroom : room ≤ room') (least : Nat) :
    Local n (expression room least) (expression room' least) := by
  induction room generalizing room' least with
  | zero => exact .refuse
  | succ room ih =>
    obtain ⟨k, rfl⟩ : ∃ k, room' = k + 1 := ⟨room' - 1, by omega⟩
    have hinner := fun least => ih (Nat.le_of_succ_le_succ hroom) least
    refine .deeper fun s t h => ?_
    refine bind_of (.operand hinner) h (fun lhs s' _ => operators_forward hinner _ s' lhs) ?_
    intro lhs s' t' _ _ h'
    exact Local.operators hinner (expression_sound room) (expression_sound k) _ _ s' t' lhs h'
      (Nat.le_refl _) (Nat.le_refl _)

end Expressions

/-! ## Statements -/

section Statements

variable {room room' : Nat} {braces braces' : TokenReader (List Stmt × Span)}
  {stmt stmt' : TokenReader Stmt}

theorem Local.clause (hroom : room ≤ room') (terminator : Lexeme) :
    Local n (clause room terminator) (clause room' terminator) := by
  have hsome : Local n (some <$> TokenReader.expression room Precedence.lowest)
      (some <$> TokenReader.expression room' Precedence.lowest) := by
    rw [← bind_pure_comp, ← bind_pure_comp]
    exact (Local.expression hroom _).bind fun e => .pure _
  refine Local.peek.bind fun t => ?_
  split
  · split
    · exact .pure none
    · exact hsome
  · exact hsome

theorem Local.condition (hroom : room ≤ room') : Local n (condition room) (condition room') :=
  (Local.expect _).bind fun _ => (Local.expression hroom _).bind fun e =>
    (Local.expect _).bind fun _ => .pure e

theorem Local.statement (hroom : room ≤ room') (h : Local n braces braces') :
    Local n (statement room braces) (statement room' braces') := by
  refine Local.current.bind fun t => ?_
  split
  · exact Local.pass.bind fun _ => (Local.condition hroom).bind fun _ => h.bind fun _ => .pure _
  · exact Local.pass.bind fun _ => (Local.condition hroom).bind fun _ => h.bind fun _ => .pure _
  · exact Local.pass.bind fun _ => (Local.expect _).bind fun _ => (Local.clause hroom _).bind fun _ =>
      (Local.expect _).bind fun _ => (Local.clause hroom _).bind fun _ => (Local.expect _).bind fun _ =>
      (Local.clause hroom _).bind fun _ => (Local.expect _).bind fun _ => h.bind fun _ => .pure _
  · exact h.bind fun _ => .pure _
  · exact (Local.expression hroom _).bind fun _ => (Local.expect _).bind fun _ => .pure _

/-- A statement takes a token at least. -/
def Shortens (stmt : TokenReader Stmt) : Prop :=
  ∀ s a s', stmt s = .ok a s' → s'.rest.length < s.rest.length

theorem statement_shortens (room : Nat) : Shortens (statement room (TokenReader.block room)) := by
  intro s a s' h
  obtain ⟨us, hus, hstmt⟩ := statement_sound (block_sound room) h
  have hpos := hstmt.length_pos
  rw [List.length_map] at hpos
  rw [hus.rest, List.length_append]
  omega

section Loops

variable {finish : Option Token → Option (List Stmt → TokenReader (List Stmt))}
  {loop loop' : List Token → List Stmt → TokenReader (List Stmt)}

theorem LoopsBy.forward (hloop : LoopsBy finish stmt loop)
    (hfinish : ∀ next last, finish next = some last → ∀ done, Local n (last done) (last done))
    (h : Local n stmt stmt') : ∀ (count : List Token) (s : TokenCursor) (done : List Stmt),
      s.read ≤ reach (loop count done s) := by
  intro count
  induction count with
  | nil =>
    intro s done
    cases hnext : finish s.rest.head? with
    | some last =>
      rw [hloop.ends _ _ hnext]
      exact (hfinish _ last hnext done).forward s
    | none =>
      rw [hloop.starves _ hnext]
      exact Nat.le_refl s.read
  | cons k count ih =>
    intro s done
    cases hnext : finish s.rest.head? with
    | some last =>
      rw [hloop.ends _ _ hnext]
      exact (hfinish _ last hnext done).forward s
    | none =>
      rw [hloop.goes k count done hnext]
      exact h.forward.bind (fun a s => ih s (a :: done)) s

/-- A loop over statements is local if its statements are; neither count is a bound. -/
theorem LoopsBy.isLocal (hloop : LoopsBy finish stmt loop) (hloop' : LoopsBy finish stmt' loop')
    (hfinish : ∀ next last, finish next = some last → ∀ done, Local n (last done) (last done))
    (h : Local n stmt stmt') (hshort : Shortens stmt) (hshort' : Shortens stmt') :
    ∀ (count count' : List Token) (s t : TokenCursor) (done : List Stmt), Agree n s t →
      s.rest.length ≤ count.length → t.rest.length ≤ count'.length →
      Alike n s (loop count done s) (loop' count' done t) := by
  have hforward := hloop.forward hfinish h
  intro count
  induction count with
  | nil =>
    intro count' s t done hagree hlen _
    refine ⟨hforward _ s done, fun hn => ?_⟩
    have hhead := hagree.head (Nat.lt_of_le_of_lt (hforward _ s done) hn)
    have hr : s.rest = [] := List.eq_nil_of_length_eq_zero (Nat.le_zero.1 hlen)
    cases hnext : finish s.rest.head? with
    | none => exact absurd (by rwa [hr] at hnext) hloop.needs
    | some last =>
      rw [hloop.ends _ _ hnext] at hn ⊢
      rw [hloop'.ends _ _ (by rwa [hhead])]
      exact (hfinish _ last hnext done s t hagree).same hn
  | cons k count ih =>
    intro count' s t done hagree hlen hlen'
    refine ⟨hforward _ s done, fun hn => ?_⟩
    have hhead := hagree.head (Nat.lt_of_le_of_lt (hforward _ s done) hn)
    cases hnext : finish s.rest.head? with
    | some last =>
      rw [hloop.ends _ _ hnext] at hn ⊢
      rw [hloop'.ends _ _ (by rwa [hhead])]
      exact (hfinish _ last hnext done s t hagree).same hn
    | none =>
      cases count' with
      | nil =>
        have hr' : t.rest = [] := List.eq_nil_of_length_eq_zero (Nat.le_zero.1 hlen')
        exact absurd (by rwa [← hhead, hr'] at hnext) hloop.needs
      | cons k' count' =>
        rw [hloop.goes k count done hnext] at hn ⊢
        rw [hloop'.goes k' count' done (by rwa [hhead])]
        refine (Local.bind_of h hagree (fun a s' _ => hforward _ s' _)
          fun a s' t' hs' ht' h' => ?_).same hn
        have hless := hshort _ _ _ hs'
        have hless' := hshort' _ _ _ ht'
        rw [List.length_cons] at hlen hlen'
        exact ih count' s' t' _ h' (by omega) (by omega)

theorem finishBlock_local (next : Option Token) (last : List Stmt → TokenReader (List Stmt))
    (h : finishBlock next = some last) (done : List Stmt) : Local n (last done) (last done) := by
  cases next with
  | none =>
    cases h
    exact .throw fun _ => rfl
  | some t =>
    rw [finishBlock] at h
    split at h
    · cases h
      exact .pure _
    · cases h

theorem finishProgram_local (next : Option Token) (last : List Stmt → TokenReader (List Stmt))
    (h : finishProgram next = some last) (done : List Stmt) : Local n (last done) (last done) := by
  cases next with
  | none =>
    cases h
    exact .pure _
  | some t => cases h

end Loops

theorem Local.block {room room' : Nat} (hroom : room ≤ room') :
    Local n (TokenReader.block room) (TokenReader.block room') := by
  induction room generalizing room' with
  | zero =>
    cases room' with
    | zero => exact (Local.expect _).bind fun _ => .refuse
    | succ k => exact (Local.expect _).bind fun _ => .refuse
  | succ room ih =>
    obtain ⟨k, rfl⟩ : ∃ k, room' = k + 1 := ⟨room' - 1, by omega⟩
    have hstmt := Local.statement (Nat.le_of_succ_le_succ hroom) (ih (Nat.le_of_succ_le_succ hroom))
    refine (Local.expect _).bind fun _ => Local.bind (.deeper fun s t h => ?_) fun _ =>
      Local.current.bind fun _ => Local.pass.bind fun _ => .pure _
    exact (statements_loopsBy _).isLocal (statements_loopsBy _) finishBlock_local hstmt
      (statement_shortens room) (statement_shortens k) _ _ s t [] h (Nat.le_refl _) (Nat.le_refl _)

end Statements

/-- Lists of tokens that begin alike are read alike as far as that, in no less room. -/
theorem Local.program {ts ts' : List Token} {limit limit' : Int} (h : ts'.take n = ts.take n)
    (hlimit : limit ≤ limit') : Alike n (.start ts limit) (program (.start ts limit))
      (program (.start ts' limit')) := by
  have hagree : Agree n (.start ts limit) (.start ts' limit') := ⟨rfl, h⟩
  have hroom : limit.toNat ≤ limit'.toNat := by omega
  rw [program_start, program_start]
  exact (statementsToEnd_loopsBy _).isLocal (statementsToEnd_loopsBy _) finishProgram_local
    (Local.statement hroom (Local.block hroom)) (statement_shortens _) (statement_shortens _)
    _ _ _ _ [] hagree (Nat.le_refl _) (Nat.le_refl _)

end TokenReader

end Imp32
