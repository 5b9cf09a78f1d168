import Imp32.Text.Decimal
import Imp32.Text.Quoted
import Mathlib.Algebra.Group.Nat.Defs

/-!
# What is written can be read back

A numeral and a quoted text say what they were written from (`decimal_injective`,
`quoted_injective`), and neither goes on to another line. In a quoted text this is so because no
escape is the beginning of another one (`Escapes.append_inj`): the letter behind the backslash says
how many digits follow.
-/

namespace Imp32.Text

/-! ## Numerals -/

theorem toDigits_injective {m n : Nat} (h : Nat.toDigits 10 m = Nat.toDigits 10 n) : m = n := by
  rw [← Nat.ofDigitChars_ten_toDigits (n := m), h, Nat.ofDigitChars_ten_toDigits]

theorem isDigit_of_mem_toDigits {n : Nat} {c : Char} (h : c ∈ Nat.toDigits 10 n) :
    c.isDigit = true :=
  Nat.isDigit_of_mem_toDigits (by decide) (by decide) h

theorem decimal_injective {m n : Int} (h : decimal m = decimal n) : m = n := by
  have hminus : ∀ {i j : Nat}, '-' :: Nat.toDigits 10 i ≠ Nat.toDigits 10 j := fun heq =>
    absurd (isDigit_of_mem_toDigits (heq ▸ List.mem_cons_self)) (by decide)
  unfold decimal at h
  split at h
  · split at h
    · have := toDigits_injective (List.cons.inj h).2
      omega
    · exact absurd h hminus
  · split at h
    · exact absurd h.symm hminus
    · have := toDigits_injective h
      omega

theorem lineFeed_notMem_decimal (n : Int) : '\n' ∉ decimal n := by
  have hdigits : '\n' ∉ Nat.toDigits 10 n.natAbs := fun h =>
    absurd (isDigit_of_mem_toDigits h) (by decide)
  unfold decimal
  split
  · exact List.not_mem_cons_of_ne_of_not_mem (by decide) hdigits
  · exact hdigits

/-! ## Hexadecimal digits -/

theorem hexDigit_injective : ∀ a < 16, ∀ b < 16, hexDigit a = hexDigit b → a = b := by
  decide

theorem hexDigit_ne_lineFeed : ∀ a < 16, hexDigit a ≠ '\n' := by
  decide

theorem hexDigits_injective {width : Nat} : ∀ {m n : Nat}, m < 16 ^ width → n < 16 ^ width →
    hexDigits width m = hexDigits width n → m = n := by
  induction width with
  | zero => intro m n hm hn _; omega
  | succ width ih =>
    intro m n hm hn h
    rw [Nat.pow_succ] at hm hn
    obtain ⟨hfront, hlast⟩ := List.append_inj' h rfl
    have hquotient := ih (by omega) (by omega) hfront
    have hdigit := hexDigit_injective _ (Nat.mod_lt m (by decide)) _ (Nat.mod_lt n (by decide))
      (List.head_eq_of_cons_eq hlast)
    omega

theorem lineFeed_notMem_hexDigits (width n : Nat) : '\n' ∉ hexDigits width n := by
  induction width generalizing n with
  | zero => exact List.not_mem_nil
  | succ width ih =>
    rw [hexDigits, List.mem_append, List.mem_singleton]
    rintro (h | h)
    · exact ih _ h
    · exact hexDigit_ne_lineFeed _ (Nat.mod_lt n (by decide)) h.symm

/-! ## Escapes -/

/-- The characters that are escaped by name, each with the letter behind its backslash. -/
def namedEscapes (quote : Char) : List (Char × Char) :=
  [(quote, quote), ('\\', '\\'), ('\n', 'n'), ('\r', 'r'), ('\t', 't')]

/-- The letters behind the backslash of a code point, each with the number of digits. -/
def codePointWidths : List (Char × Nat) :=
  [('x', 2), ('u', 4), ('U', 8)]

/-- How a character is written between quotes. -/
inductive Escapes (quote : Char) : Char → List Char → Prop
  | plain {c : Char} : c ≠ '\\' → c ≠ '\n' → Escapes quote c [c]
  | named {c letter : Char} : (c, letter) ∈ namedEscapes quote → Escapes quote c ['\\', letter]
  | codePoint {c letter : Char} {width : Nat} : (letter, width) ∈ codePointWidths →
      c.toNat < 16 ^ width → Escapes quote c ('\\' :: letter :: hexDigits width c.toNat)

theorem escapes_codePointEscape (quote c : Char) : Escapes quote c (codePointEscape c) := by
  fun_cases codePointEscape c with
  | case1 h => exact .codePoint (by decide) h
  | case2 _ h => exact .codePoint (by decide) h
  | case3 =>
    have hlt : c.toNat < 16 ^ 8 := Nat.lt_of_lt_of_le c.val.toNat_lt_size (by decide)
    exact .codePoint (by decide) hlt

theorem escapes_escapeIn (quote c : Char) : Escapes quote c (escapeIn quote c) := by
  fun_cases escapeIn quote c with
  | case1 hmark =>
    have hmark : c = quote ∨ c = '\\' := by simpa using hmark
    exact .named (by rcases hmark with rfl | rfl <;> simp [namedEscapes])
  | case2 _ hfeed => exact .named (by simp [namedEscapes, hfeed])
  | case3 _ _ hreturn => exact .named (by simp [namedEscapes, hreturn])
  | case4 _ _ _ htab => exact .named (by simp [namedEscapes, htab])
  | case5 hmark hfeed =>
    rw [Bool.or_eq_true, not_or] at hmark
    exact .plain (by simpa using hmark.2) hfeed
  | case6 => exact escapes_codePointEscape quote c

section Escapes

variable {quote c d : Char}

/-- The letter behind the backslash says which character is escaped by name, or how many digits
follow. -/
theorem eq_of_namedEscapes (hquote : quote = '\'' ∨ quote = '"') :
    ∀ p ∈ namedEscapes quote, ∀ q ∈ namedEscapes quote, p.2 = q.2 → p.1 = q.1 := by
  rcases hquote with rfl | rfl <;> decide

theorem ne_codePointWidths (hquote : quote = '\'' ∨ quote = '"') :
    ∀ p ∈ namedEscapes quote, ∀ q ∈ codePointWidths, p.2 ≠ q.1 := by
  rcases hquote with rfl | rfl <;> decide

theorem eq_of_codePointWidths :
    ∀ p ∈ codePointWidths, ∀ q ∈ codePointWidths, p.1 = q.1 → p.2 = q.2 := by
  decide

/-- No escape is the beginning of another one. -/
theorem Escapes.append_inj {xs ys r r' : List Char} (hquote : quote = '\'' ∨ quote = '"')
    (h : Escapes quote c xs) (h' : Escapes quote d ys) (heq : xs ++ r = ys ++ r') :
    c = d ∧ r = r' := by
  cases h with
  | plain hc _ =>
    cases h' with
    | plain => exact List.cons.inj heq
    | named => exact absurd (List.cons.inj heq).1 hc
    | codePoint => exact absurd (List.cons.inj heq).1 hc
  | named hc =>
    cases h' with
    | plain hd _ => exact absurd (List.cons.inj heq).1.symm hd
    | named hd =>
      obtain ⟨hletter, hrest⟩ := List.cons.inj (List.cons.inj heq).2
      exact ⟨eq_of_namedEscapes hquote _ hc _ hd hletter, hrest⟩
    | codePoint hd _ =>
      exact absurd (List.cons.inj (List.cons.inj heq).2).1 (ne_codePointWidths hquote _ hc _ hd)
  | codePoint hc hlt =>
    cases h' with
    | plain hd _ => exact absurd (List.cons.inj heq).1.symm hd
    | named hd =>
      have hletter := (List.cons.inj (List.cons.inj heq).2).1.symm
      exact absurd hletter (ne_codePointWidths hquote _ hd _ hc)
    | codePoint hd hlt' =>
      obtain ⟨hletter, hrest⟩ := List.cons.inj (List.cons.inj heq).2
      obtain rfl := eq_of_codePointWidths _ hc _ hd hletter
      obtain ⟨hdigits, hrest⟩ := List.append_inj hrest (by rw [length_hexDigits, length_hexDigits])
      exact ⟨Char.toNat_inj.1 (hexDigits_injective hlt hlt' hdigits), hrest⟩

theorem Escapes.lineFeed_notMem {xs : List Char} (hquote : quote = '\'' ∨ quote = '"')
    (h : Escapes quote c xs) : '\n' ∉ xs := by
  cases h with
  | plain _ hc => simpa using hc.symm
  | named hc =>
    have hletter : ∀ p ∈ namedEscapes quote, '\n' ≠ p.2 := by
      rcases hquote with rfl | rfl <;> decide
    simpa using hletter _ hc
  | codePoint hc _ =>
    have hletter : ∀ p ∈ codePointWidths, '\n' ≠ p.1 := by decide
    simpa using ⟨hletter _ hc, lineFeed_notMem_hexDigits _ _⟩

end Escapes

/-! ## Quoted texts -/

theorem quoteFor_eq (cs : List Char) : quoteFor cs = '\'' ∨ quoteFor cs = '"' := by
  unfold quoteFor
  split
  · exact .inr rfl
  · exact .inl rfl

theorem flatMap_escapeIn_injective {quote : Char} (hquote : quote = '\'' ∨ quote = '"') :
    ∀ {cs ds : List Char}, cs.flatMap (escapeIn quote) = ds.flatMap (escapeIn quote) → cs = ds := by
  have hne : ∀ (c : Char) (r : List Char), escapeIn quote c ++ r ≠ [] := fun c r h => by
    have hempty := (List.append_eq_nil_iff.1 h).1
    have := escapes_escapeIn quote c
    rw [hempty] at this
    cases this
  intro cs
  induction cs with
  | nil =>
    intro ds h
    cases ds with
    | nil => rfl
    | cons d ds => exact absurd h.symm (hne d _)
  | cons c cs ih =>
    intro ds h
    cases ds with
    | nil => exact absurd h (hne c _)
    | cons d ds =>
      rw [List.flatMap_cons, List.flatMap_cons] at h
      obtain ⟨rfl, hrest⟩ :=
        (escapes_escapeIn quote c).append_inj hquote (escapes_escapeIn quote d) h
      rw [ih hrest]

theorem quoted_injective {cs ds : List Char} (h : quoted cs = quoted ds) : cs = ds := by
  obtain ⟨hquote, hrest⟩ := List.cons.inj h
  rw [← hquote] at hrest
  exact flatMap_escapeIn_injective (quoteFor_eq cs) (List.append_cancel_right hrest)

theorem lineFeed_notMem_quoted (cs : List Char) : '\n' ∉ quoted cs := by
  have hquote : '\n' ≠ quoteFor cs := by
    rcases quoteFor_eq cs with h | h <;> rw [h] <;> decide
  have hescapes : '\n' ∉ cs.flatMap (escapeIn (quoteFor cs)) := fun h => by
    obtain ⟨c, -, hc⟩ := List.mem_flatMap.1 h
    exact (escapes_escapeIn _ c).lineFeed_notMem (quoteFor_eq cs) hc
  unfold quoted
  simp [hquote, hescapes]

end Imp32.Text
