import Imp32.Proofs.Listing.Text
import Imp32.Proofs.Text.Quoting

/-!
# Labels that are written alike

An emitter counts the labels that it gives out, and so no two of them are one label. A label is
written as its stem with the number behind it, though, and the text does not show where the number
begins: the first label for the stem `1` is written as the eleventh one for no stem. Two labels are
written alike just if the earlier stem goes on, behind the later one, with the first digits of the
later number (`Label.text_fresh_eq_iff`). So labels are told apart by their stems: whatever else is
asked of an emitter in between, stems none of which is another one with digits behind it keep all
labels apart (`Emitter.labels_told_apart`).
-/

namespace Imp32.Assembly

/-! ## The end of a label -/

/-- The text is another one with digits behind it. -/
def GoesOnInDigits (text other : String) : Prop :=
  ∃ ds, ds ≠ [] ∧ (∀ c ∈ ds, c.isDigit = true) ∧ text.toList = other.toList ++ ds

namespace Label

/-- The label is written as a later one is: its stem goes on, behind the stem of the later one, with
the first digits of the later number, and its own number is what the other digits are. -/
def Overlaps : Label → Label → Prop
  | fresh stem n, fresh stem' n' =>
    ∃ ds, stem.toList = stem'.toList ++ ds ∧ Nat.toDigits 10 n' = ds ++ Nat.toDigits 10 n
  | _, _ => False

/-- The label is written as that of a handler: its stem is the beginning of the handler's name, and
its number is what the name ends with. -/
def Imitates (kind : String) : Label → Prop
  | fresh stem n =>
    ∃ cs, stem.toList = "trap_".toList ++ cs ∧ kind.toList = cs ++ Nat.toDigits 10 n
  | _ => False

theorem toList_text_trap (kind : String) :
    (trap kind).text.toList = '.' :: 'L' :: ("trap_".toList ++ kind.toList) := by
  show (s!".Ltrap_{kind}").toList = _
  simp [toString]

variable {stem stem' kind : String} {n n' : Nat}

/-- The greater number has no fewer digits, so that its digits are not the end of the other's. -/
theorem toDigits_ne_append (h : n < n') (ds : List Char) :
    Nat.toDigits 10 n ≠ ds ++ Nat.toDigits 10 n' := by
  intro heq
  have hlt : n' < 10 ^ (Nat.toDigits 10 n').length :=
    (Nat.length_toDigits_le_iff (by decide) Nat.length_toDigits_pos).1 (Nat.le_refl _)
  have hle : (Nat.toDigits 10 n).length ≤ (Nat.toDigits 10 n').length :=
    (Nat.length_toDigits_le_iff (by decide) Nat.length_toDigits_pos).2 (h.trans hlt)
  have hlength := congrArg List.length heq
  rw [List.length_append] at hlength
  have hds : ds = [] := List.length_eq_zero_iff.1 (by omega)
  subst hds
  exact h.ne (Text.toDigits_injective heq)

theorem text_fresh_eq_iff (h : n < n') :
    (fresh stem n).text = (fresh stem' n').text ↔ (fresh stem n).Overlaps (fresh stem' n') := by
  simp only [← String.toList_inj, toList_text_fresh, List.cons.injEq, true_and]
  constructor
  · intro heq
    obtain ⟨ds, -, hdigits⟩ | ⟨ds, hstem, hdigits⟩ := List.append_eq_append_iff.1 heq
    · exact absurd hdigits (toDigits_ne_append h ds)
    · exact ⟨ds, hstem, hdigits⟩
  · rintro ⟨ds, hstem, hdigits⟩
    rw [hstem, hdigits, List.append_assoc]

theorem text_fresh_eq_text_trap_iff :
    (fresh stem n).text = (trap kind).text ↔ (fresh stem n).Imitates kind := by
  simp only [← String.toList_inj, toList_text_fresh, toList_text_trap, List.cons.injEq, true_and]
  constructor
  · intro heq
    obtain ⟨cs, hstem, hdigits⟩ | ⟨cs, hstem, hkind⟩ := List.append_eq_append_iff.1 heq
    · -- The number does not begin in front of the underscore, which is no digit.
      obtain rfl | hne := eq_or_ne cs []
      · exact ⟨[], by simpa using hstem.symm, by simpa using hdigits.symm⟩
      · have hlast : '_' ∈ cs := by
          have hlast := congrArg List.getLast? hstem
          rw [List.getLast?_append_of_ne_nil _ hne] at hlast
          exact List.mem_of_getLast? hlast.symm
        have hdigit := Text.isDigit_of_mem_toDigits (hdigits ▸ List.mem_append_left _ hlast)
        exact absurd hdigit (by decide)
    · exact ⟨cs, hstem, hkind⟩
  · rintro ⟨cs, hstem, hkind⟩
    rw [hstem, hkind, List.append_assoc]

/-- The handlers that have a code are not named with a number at the end. -/
theorem not_imitates {l : Label} {code : Int} (h : trapCode? kind = some code) :
    ¬l.Imitates kind := by
  cases l with
  | fresh stem n =>
    rintro ⟨cs, -, hkind⟩
    have hne : Nat.toDigits 10 n ≠ [] := Nat.toDigits_ne_nil
    obtain ⟨c, hc⟩ := List.exists_mem_of_ne_nil _ hne
    have hmem : c ∈ (trap kind).text.toList := by
      rw [toList_text_trap, hkind]
      simp [hc]
    have hstem := List.all_eq_true.1 (isStem_trap h) c hmem
    rw [Text.isDigit_of_mem_toDigits hc] at hstem
    cases hstem
  | trap _ => exact id
  | named _ => exact id

/-- A stem that goes on with digits of a greater number goes on with one at least. -/
theorem Overlaps.goesOnInDigits (h : n < n') (hover : (fresh stem n).Overlaps (fresh stem' n')) :
    GoesOnInDigits stem stem' := by
  obtain ⟨ds, hstem, hdigits⟩ := hover
  refine ⟨ds, ?_, fun c hc => ?_, hstem⟩
  · rintro rfl
    exact h.ne (Text.toDigits_injective hdigits.symm)
  · exact Text.isDigit_of_mem_toDigits (hdigits ▸ List.mem_append_left _ hc)

end Label

/-! ## Labels with their numbers -/

theorem freshLabels_append (a b : List String) (n : Nat) :
    freshLabels (a ++ b) n = freshLabels a n ++ freshLabels b (n + a.length) := by
  induction a generalizing n with
  | nil => rfl
  | cons stem a ih =>
    rw [List.cons_append, freshLabels, freshLabels, ih, List.cons_append, List.length_cons,
      Nat.add_assoc, Nat.add_comm 1]

/-- Of two labels in order, the second has the greater number. -/
theorem freshLabels_pairwise (stems : List String) (n : Nat) :
    (freshLabels stems n).Pairwise fun l l' => ∃ stem ∈ stems, ∃ k, ∃ stem' ∈ stems, ∃ k',
      l = .fresh stem k ∧ l' = .fresh stem' k' ∧ k < k' := by
  have hnumbers : (freshLabels stems n).Pairwise fun l l' => l.number < l'.number := by
    rw [← List.pairwise_map, map_number_freshLabels]
    exact List.pairwise_lt_range'
  refine hnumbers.imp_of_mem fun {l l'} hl hl' hlt => ?_
  obtain ⟨stem, hstem, k, rfl⟩ := mem_freshLabels hl
  obtain ⟨stem', hstem', k', rfl⟩ := mem_freshLabels hl'
  exact ⟨stem, hstem, k, stem', hstem', k', rfl, rfl, hlt⟩

/-! ## Requests -/

namespace Emitter

/-- What an emitter may be asked for. -/
inductive Request where
  | newLabel (stem : String)
  | trapLabel (kind : String)
  | emit (op : Op)
  | emitHandlers
  | output
  deriving DecidableEq, Repr

namespace Request

/-- The labels that the emitter gives out, be it inside of an expansion, and the emitter behind the
request. -/
def run (target : Target) (e : Emitter) : Request → List Label × Emitter
  | newLabel stem => ([(e.newLabel stem).1], (e.newLabel stem).2)
  | trapLabel kind => ([], (e.trapLabel kind).2)
  | emit op => ((op.step target e.labels).scratch, (e.emit target op).2)
  | emitHandlers => ([], e.emitHandlers.2)
  | output => ([], e)

/-- The labels that the emitter gives out for requests, one after the other. -/
def runAll (target : Target) : List Request → Emitter → List Label
  | [], _ => []
  | r :: rs, e => (r.run target e).1 ++ runAll target rs (r.run target e).2

/-- The stems for which a request takes labels. -/
def stems (target : Target) : Request → List String
  | newLabel stem => [stem]
  | emit op => target.scratch op
  | _ => []

/-- A request takes labels with the numbers from the count on, and counts them. -/
theorem run_eq (target : Target) (r : Request) (e : Emitter) :
    (r.run target e).1 = freshLabels (r.stems target) e.labels ∧
      (r.run target e).2.labels = e.labels + (r.stems target).length := by
  cases r with
  | newLabel stem => exact ⟨rfl, rfl⟩
  | trapLabel kind => exact ⟨rfl, rfl⟩
  | emit op => exact ⟨rfl, congrArg (e.labels + ·) (length_freshLabels _ _)⟩
  | emitHandlers => exact ⟨rfl, rfl⟩
  | output => exact ⟨rfl, rfl⟩

theorem runAll_eq (target : Target) (rs : List Request) (e : Emitter) :
    runAll target rs e = freshLabels (rs.flatMap (·.stems target)) e.labels := by
  induction rs generalizing e with
  | nil => rfl
  | cons r rs ih =>
    obtain ⟨hgiven, hcount⟩ := run_eq target r e
    rw [runAll, ih, hgiven, hcount, List.flatMap_cons, freshLabels_append]

end Request

/-- The labels that a new emitter gives out for requests. -/
def given (target : Target) (rs : List Request) : List Label := Request.runAll target rs empty

/-- How far the labels that a new emitter gives out for requests are written apart. -/
structure LabelsToldApart (target : Target) (rs : List Request) : Prop where
  /-- The labels have the stems that they are taken for, and are numbered from 1 on. -/
  numbered : given target rs = freshLabels (rs.flatMap (·.stems target)) 0
  /-- Of two labels, the earlier one is written as the later one just if it overlaps it. -/
  alike_iff : (given target rs).Pairwise fun l l' => l.text = l'.text ↔ l.Overlaps l'
  /-- If no stem is another one with digits behind it, all labels are different. -/
  distinct : (∀ stem ∈ rs.flatMap (·.stems target), ∀ stem' ∈ rs.flatMap (·.stems target),
    ¬GoesOnInDigits stem stem') → ((given target rs).map Label.text).Nodup
  handler_iff : ∀ l ∈ given target rs, ∀ kind, l.text = (Label.trap kind).text ↔ l.Imitates kind
  /-- No label is written as that of a handler that has a code. -/
  handler_ne : ∀ l ∈ given target rs, ∀ kind code, trapCode? kind = some code →
    l.text ≠ (Label.trap kind).text

/-- Whatever an emitter is asked for, the labels that it gives out are written apart as far as their
stems are. -/
theorem labels_told_apart (target : Target) (rs : List Request) : LabelsToldApart target rs := by
  have hgiven : given target rs = freshLabels (rs.flatMap (·.stems target)) 0 :=
    Request.runAll_eq target rs empty
  have hordered := freshLabels_pairwise (rs.flatMap (·.stems target)) 0
  rw [← hgiven] at hordered
  have himitates : ∀ l ∈ given target rs, ∀ kind,
      l.text = (Label.trap kind).text ↔ l.Imitates kind := by
    intro l hl kind
    rw [hgiven] at hl
    obtain ⟨stem, -, n, rfl⟩ := mem_freshLabels hl
    exact Label.text_fresh_eq_text_trap_iff
  refine ⟨hgiven, ?_, fun hstems => ?_, himitates, fun l hl kind code hcode heq => ?_⟩
  · refine hordered.imp fun {l l'} h => ?_
    obtain ⟨stem, -, k, stem', -, k', rfl, rfl, hlt⟩ := h
    exact Label.text_fresh_eq_iff hlt
  · refine List.pairwise_map.2 (hordered.imp fun {l l'} h heq => ?_)
    obtain ⟨stem, hstem, k, stem', hstem', k', rfl, rfl, hlt⟩ := h
    have hover := (Label.text_fresh_eq_iff hlt).1 heq
    exact hstems stem hstem stem' hstem' (hover.goesOnInDigits hlt)
  · exact Label.not_imitates hcode ((himitates l hl kind).1 heq)

/-- The first label, for the stem `1`, is written as the eleventh one, for no stem. -/
example :
    let labels := given .x86 (.newLabel "1" :: List.replicate 10 (.newLabel ""))
    labels.head?.map Label.text = some ".L11" ∧ labels.getLast?.map Label.text = some ".L11" := by
  cbv

end Emitter

end Imp32.Assembly
