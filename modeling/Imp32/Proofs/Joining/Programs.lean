import Imp32.Proofs.Grammar.Neighbours
import Imp32.Proofs.Joining.Reading
import Imp32.Proofs.Joining.Tokens

/-!
# Programs that are put together

Two texts that are programs are a program when they are put together, with nothing between them: the
statements of the first, and those of the second moved by the bytes of the first. It runs as the
first does, and then as the second does on the variables that the first leaves (`parse_append`).

The tokens meet at the seam without touching, since a program ends with a semicolon or a brace, and
reading a statement does not look behind it.
-/

namespace Imp32

open Grammar

/-- No character goes on with the last token of a program. -/
theorem endsBefore_of_ofTokens {ts : List Token} {limit : Int} {p : Program}
    (h : Program.ofTokens ts limit = .ok p) (cs : List Char) :
    ∀ t ∈ ts.getLast?, t.lexeme.EndsBefore cs := by
  intro t ht c _
  have hlast : t.lexeme ∈ (ts.map Token.lexeme).getLast? := by
    rw [List.getLast?_map, Option.mem_def.1 ht]
    rfl
  obtain hl | hl := (ofTokens_sound h).getLast? _ hlast <;> rw [hl] <;> rfl

/-- The tokens of two programs, the second ones moved, are those of the two programs in order. -/
theorem ofTokens_append {ts us : List Token} {limit : Int} {p q : Program} (n : Int)
    (hp : Program.ofTokens ts limit = .ok p) (hq : Program.ofTokens us limit = .ok q) :
    Program.ofTokens (ts ++ us.map (·.shift n)) limit = .ok (p ++ shiftAll q n) := by
  obtain ⟨s, hs⟩ := Program.ofTokens_eq_ok.1 hp
  obtain ⟨s', hs'⟩ := Program.ofTokens_eq_ok.1 hq
  -- the first tokens stand where they stood
  have hfirst : Moved 0 (us.map (·.shift n)) (.start ts limit)
      (.start (ts ++ us.map (·.shift n)) limit) := by
    show _ = ts.map (·.shift 0) ++ _
    simp [TokenCursor.start]
  obtain ⟨_, count, t, rfl, hrest, hcount, hread⟩ := TokenReader.statementsToEnd_moved
    (.statement (.block limit.toNat)) ts (ts ++ us.map (·.shift n)) _ _ [] [] p s hfirst
    (Nat.le_refl _) (Nat.le_refl _) hs
  -- nothing follows the others
  have hsecond : Moved n [] (.start us limit) t := by
    show t.rest = us.map (·.shift n) ++ []
    rw [hrest, List.append_nil]
  obtain ⟨_, count', t', rfl, hend, -, hread'⟩ := TokenReader.statementsToEnd_moved
    (.statement (.block limit.toNat)) us count _ t [] ((shiftAll p 0).reverse ++ []) q s' hsecond
    (Nat.le_refl _) (hrest ▸ hcount) hs'
  refine Program.ofTokens_eq_ok.2 ⟨t', ?_⟩
  rw [hread, hread', TokenReader.statementsToEnd_of_nil count' hend, shiftAll_zero]
  simp

/-- Texts that are programs are one program when they are put together, which runs as one after the
other. -/
theorem parse_append {a b : String} {limit : Int} {p q : Program}
    (ha : Program.parse a limit = .ok p) (hb : Program.parse b limit = .ok q) :
    Program.parse (a ++ b) limit = .ok (p ++ shiftAll q (Text.utf8Length a.toList)) ∧
      ∀ turns, Program.eval turns (p ++ shiftAll q (Text.utf8Length a.toList)) =
        Outcome.goOn (Program.eval turns p) turns q (Text.utf8Length a.toList) := by
  obtain ⟨ts, hts, hp⟩ := Program.parse_eq_ok.1 ha
  obtain ⟨us, hus, hq⟩ := Program.parse_eq_ok.1 hb
  have htokens := tokens_append hts hus (endsBefore_of_ofTokens hp b.toList)
  exact ⟨Program.parse_eq_ok.2 ⟨_, htokens, ofTokens_append _ hp hq⟩,
    fun turns => eval_append_shift turns p q _⟩

/-- The second program fails on the variable of the first, behind a blank of three bytes. -/
theorem parse_append_quotient : ∃ p q, Program.parse "x = 6;\u3000" 2 = .ok p ∧
    Program.parse "x / 0;" 2 = .ok q ∧
    Program.parse ("x = 6;\u3000" ++ "x / 0;") 2 = .ok (p ++ shiftAll q 9) ∧
    Program.eval 0 (p ++ shiftAll q 9) =
      .error (.error (.divisionByZero (some ⟨9, 14⟩))) [("x", 6)] := by
  have hfirst : (Program.parse "x = 6;\u3000" 2).toOption.isSome := by decide +kernel
  have hsecond : (Program.parse "x / 0;" 2).toOption.isSome := by decide +kernel
  have hrun : (Program.parse ("x = 6;\u3000" ++ "x / 0;") 2).toOption.map (fun p =>
      match Program.eval 0 p with
      | .ok _ _ => none
      | .error halt env => some (halt, env)) =
        some (some (.error (.divisionByZero (some ⟨9, 14⟩)), [("x", 6)])) := by decide +kernel
  cases hp : Program.parse "x = 6;\u3000" 2 with
  | error e =>
    rw [hp] at hfirst
    cases hfirst
  | ok p =>
    cases hq : Program.parse "x / 0;" 2 with
    | error e =>
      rw [hq] at hsecond
      cases hsecond
    | ok q =>
      have hboth : Program.parse ("x = 6;\u3000" ++ "x / 0;") 2 = .ok (p ++ shiftAll q 9) :=
        (parse_append hp hq).1
      refine ⟨p, q, rfl, rfl, hboth, ?_⟩
      rw [hboth] at hrun
      have hrun := Option.some.inj hrun
      dsimp only at hrun
      cases heval : Program.eval 0 (p ++ shiftAll q 9) with
      | ok v env =>
        rw [heval] at hrun
        cases hrun
      | error halt env =>
        rw [heval] at hrun
        obtain ⟨rfl, rfl⟩ := Prod.mk.inj (Option.some.inj hrun)
        rfl

end Imp32
