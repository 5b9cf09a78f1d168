import Imp32.Proofs.Compiler.Linking
import Imp32.Proofs.Compiler.Stems
import Imp32.Proofs.Text.Letters
import Imp32.Proofs.Text.Lines

/-!
# Labels in the text of a listing

A listing is text, and what it says of labels can be read off its lines: a line that ends with a colon
sets the label in front of the colon (`labelOn?`), and a line whose first word is the mnemonic of a
branch goes on at the label that is its last word (`Target.goalOn?`). `Target.WellLabelled` says of
lines that they set every label once, that every branch lands, and that the handlers are those that
something branches to, behind the last return.
-/

namespace Imp32

open Text

namespace Assembly

/-! ## What a line says -/

def labelOn? (line : List Char) : Option String :=
  if line.getLast? = some ':' then some (String.ofList line.dropLast) else none

def firstWord (line : List Char) : List Char :=
  (line.dropWhile (· = ' ')).takeWhile (· ≠ ' ')

def lastWord (line : List Char) : List Char := takeWhileEnd (· ≠ ' ') line

/-- The word is the mnemonic of a branch or a call to a label. -/
def Target.branchesBy (target : Target) (word : List Char) : Bool :=
  match target with
  | .arm64 => word.take 2 = ['b', '.'] ||
      ["b", "bl", "cbz", "cbnz", "tbz", "tbnz"].contains (String.ofList word)
  | .x86 => word.head? = some 'j' || String.ofList word = "call"

def Target.goalOn? (target : Target) (line : List Char) : Option String :=
  if (labelOn? line).isNone && target.branchesBy (firstWord line) then
    some (String.ofList (lastWord line))
  else none

example : Target.arm64.goalOn? "    cbz w1, .Ltrap_div_zero".toList = some ".Ltrap_div_zero" := by
  decide

/-- The word is the mnemonic of an instruction that aborts. -/
def Target.abortsBy (target : Target) (word : List Char) : Bool :=
  match target with
  | .arm64 => word = "brk".toList
  | .x86 => word = "ud2".toList

def isHandler (label : String) : Bool := ".Ltrap_".toList.isPrefixOf label.toList

/-- The lines are handlers: each sets its label and aborts. -/
inductive Target.Handlers (target : Target) : List (List Char) → Prop
  | nil : target.Handlers []
  | cons {label : String} {line abort : List Char} {rest : List (List Char)} :
    labelOn? line = some label → isHandler label = true →
    target.abortsBy (firstWord abort) = true → target.Handlers rest →
    target.Handlers (line :: abort :: rest)

/-- The lines set every label once, and what they branch to. -/
structure Target.WellLabelled (target : Target) (lines : List (List Char)) : Prop where
  distinct : (lines.filterMap labelOn?).Nodup
  lands : ∀ label ∈ lines.filterMap target.goalOn?, (lines.filterMap labelOn?).count label = 1
  /-- A handler is there just if something branches to it. -/
  handlers : ∀ label, isHandler label = true →
    (label ∈ lines.filterMap labelOn? ↔ label ∈ lines.filterMap target.goalOn?)
  /-- The handlers, and nothing else, stand behind the last return. -/
  behind : ∃ front last back, lines = front ++ last :: back ∧ firstWord last = "ret".toList ∧
    (∀ line ∈ back, firstWord line ≠ "ret".toList) ∧ target.Handlers back ∧
    ∀ label ∈ front.filterMap labelOn?, isHandler label = false

/-! ## Reading lines -/

def isLabelChar (c : Char) : Bool := isAlphanumeric c || c = '_' || c = '.'

/-- A character that stands in a line that sets no label. -/
def isPlain (c : Char) : Bool := inLine c && c ≠ ':'

/-- The line breaks, the colon and the blank. -/
def signs : List Char :=
  ['\n', '\r', '\x0b', '\x0c', '\x1c', '\x1d', '\x1e', '\u0085', '\u2028', '\u2029', ':', ' ']

theorem isLabelChar_of_ascii {c : Char} (h : (c.isAlphanum || c = '_' || c = '.') = true) :
    isLabelChar c = true := by
  simp only [Bool.or_eq_true] at h
  rcases h with (h | h) | h
  · rw [isLabelChar, isAlphanumeric_of_isAlphanum h, Bool.true_or, Bool.true_or]
  · rw [isLabelChar, h, Bool.or_true, Bool.true_or]
  · rw [isLabelChar, h, Bool.or_true]

theorem isLabelChar_of_mem_toDigits {n : Nat} {c : Char} (h : c ∈ Nat.toDigits 10 n) :
    isLabelChar c = true := by
  have hdigit := Nat.isDigit_of_mem_toDigits (by decide) (by decide) h
  exact isLabelChar_of_ascii (by simp [Char.isAlphanum, hdigit])

theorem isLabelChar_of_mem_signs {c : Char} (h : c ∈ signs) : isLabelChar c = false := by
  have hsigns : signs.all (fun d => (isBlank d || isSign d) && d != '_' && d != '.') = true := by
    decide
  have hc := List.all_eq_true.1 hsigns c h
  simp only [Bool.and_eq_true, Bool.or_eq_true, bne_iff_ne] at hc
  obtain ⟨⟨hblank | hsign, hline⟩, hdot⟩ := hc
  · simp [isLabelChar, isAlphanumeric_of_isBlank hblank, hline, hdot]
  · simp [isLabelChar, isAlphanumeric_of_isSign hsign, hline, hdot]

theorem isPlain_of_isLabelChar {c : Char} (h : isLabelChar c = true) :
    isPlain c = true ∧ c ≠ ' ' := by
  have hne : ∀ d ∈ signs, c ≠ d := by
    rintro d hd rfl
    rw [isLabelChar_of_mem_signs hd] at h
    cases h
  simpa [signs, isPlain, inLine, isLineBreak, and_assoc] using hne

/-- The text sets no label and has no line break. -/
def Plain (text : String) : Prop := text.toList.all isPlain = true

instance (text : String) : Decidable (Plain text) :=
  inferInstanceAs (Decidable (text.toList.all isPlain = true))

theorem plain_append {a b : String} : Plain (a ++ b) ↔ Plain a ∧ Plain b := by
  simp [Plain]

theorem plain_toString {text : String} : Plain (toString text) ↔ Plain text := Iff.rfl

theorem plain_of_labelChars {text : String} (h : ∀ c ∈ text.toList, isLabelChar c = true) :
    Plain text :=
  List.all_eq_true.2 fun c hc => (isPlain_of_isLabelChar (h c hc)).1

theorem plain_nat (n : Nat) : Plain (toString n) := by
  refine plain_of_labelChars fun c hc => isLabelChar_of_mem_toDigits (n := n) ?_
  simpa [toString] using hc

theorem plain_int (n : Int) : Plain (toString n) := by
  cases n with
  | ofNat n => exact plain_nat n
  | negSucc n =>
    have hminus : Plain "-" := by decide
    exact plain_append.2 ⟨hminus, plain_nat (n + 1)⟩

/-- The line is read as one that sets and branches to these labels. -/
structure Target.Reads (target : Target) (line : List Char) (label goal : Option String) : Prop where
  inLine : ∀ c ∈ line, inLine c = true
  label : labelOn? line = label
  goal : target.goalOn? line = goal

section Reads

variable {target : Target}

theorem reads_label {text : String} (h : ∀ c ∈ text.toList, isLabelChar c = true) :
    target.Reads (text ++ ":").toList (some text) none := by
  have hlabel : labelOn? (text ++ ":").toList = some text := by
    simp [labelOn?]
  refine ⟨?_, hlabel, ?_⟩
  · intro c hc
    rw [String.toList_append] at hc
    rcases List.mem_append.1 hc with hc | hc
    · exact (Bool.and_eq_true_iff.1 (isPlain_of_isLabelChar (h c hc)).1).1
    · rw [List.mem_singleton.1 hc]
      decide
  · unfold Target.goalOn?
    rw [hlabel]
    rfl

/-- A plain line goes on at its last word if its first one is the mnemonic of a branch. -/
theorem reads_plain {text : String} {goal : Option String} (h : Plain text)
    (hfirst : target.branchesBy (firstWord text.toList) = goal.isSome)
    (hlast : ∀ label ∈ goal, lastWord text.toList = label.toList) :
    target.Reads text.toList none goal := by
  have hplain := List.all_eq_true.1 h
  have hlabel : labelOn? text.toList = none := by
    refine if_neg fun hcolon => ?_
    have := hplain ':' (List.mem_of_getLast? hcolon)
    revert this
    decide
  refine ⟨fun c hc => (Bool.and_eq_true_iff.1 (hplain c hc)).1, hlabel, ?_⟩
  unfold Target.goalOn?
  rw [hlabel, hfirst]
  cases goal with
  | none => rfl
  | some label =>
    rw [hlast label rfl, String.ofList_toList]
    rfl

/-- What begins with a dot is no mnemonic of a branch. -/
theorem branchesBy_of_dot (target : Target) (word : List Char) :
    target.branchesBy ('.' :: word) = false := by
  have hheads : ∀ text ∈ ["b", "bl", "cbz", "cbnz", "tbz", "tbnz", "call"],
      text.toList.head? ≠ some '.' := by decide
  have hne : ∀ text ∈ ["b", "bl", "cbz", "cbnz", "tbz", "tbnz", "call"],
      String.ofList ('.' :: word) ≠ text := by
    intro text htext heq
    refine hheads text htext ?_
    rw [← heq, String.toList_ofList]
    rfl
  cases target <;> simp_all [Target.branchesBy]

theorem firstWord_of_dot (cs : List Char) :
    firstWord ('.' :: cs) = '.' :: cs.takeWhile (· ≠ ' ') := by
  simp [firstWord]

theorem ne_ret_of_abortsBy {word : List Char} (h : target.abortsBy word = true) :
    word ≠ "ret".toList := by
  rintro rfl
  cases target <;> exact absurd h (by decide)

/-- A handler is not read as a return. -/
theorem firstWord_trap_ne {Instr : Type} {instrText : Instr → String} (kind : String) :
    firstWord ((Line.label (.trap kind)).text instrText).toList ≠ "ret".toList := by
  have hline : ((Line.label (.trap kind)).text instrText).toList =
      '.' :: ("Ltrap_".toList ++ kind.toList ++ [':']) := by
    simp [Line.text, Label.text, toString]
  rw [hline, firstWord_of_dot]
  exact fun h => absurd (List.cons.inj h).1 (by decide)

theorem reads_directive {Instr : Type} {instrText : Instr → String} {text : String}
    (h : Plain text) (hdot : text.toList.head? = some '.') :
    target.Reads ((Line.directive text).text instrText).toList none none := by
  have hmargin : Plain margin := by decide
  refine reads_plain (plain_append.2 ⟨hmargin, h⟩) ?_ nofun
  obtain ⟨cs, hcs⟩ := List.head?_eq_some_iff.1 hdot
  have hfirst : firstWord ((Line.directive text).text instrText).toList = firstWord text.toList := by
    simp [firstWord, Line.text, margin]
  rw [hfirst, hcs, firstWord_of_dot]
  exact branchesBy_of_dot target _

/-- The last word of a line stands behind its last blank. -/
theorem lastWord_append {a b : String} (ha : a.toList.getLast? = some ' ')
    (hb : ∀ c ∈ b.toList, isLabelChar c = true) : lastWord (a ++ b).toList = b.toList := by
  obtain ⟨before, hbefore⟩ := List.getLast?_eq_some_iff.1 ha
  have hword : ∀ c ∈ b.toList.reverse, decide (c ≠ ' ') = true := fun c hc =>
    decide_eq_true (isPlain_of_isLabelChar (hb c (List.mem_reverse.1 hc))).2
  rw [String.toList_append, hbefore]
  simp only [lastWord, takeWhileEnd, List.reverse_append]
  rw [List.takeWhile_append_of_pos hword]
  simp

end Reads

/-! ## Labels as they are written -/

/-- The name has letters, numerals and underscores only. -/
def IsEntryName (name : String) : Prop :=
  name.toList.all (fun c => isAlphanumeric c || c = '_') = true

instance (name : String) : Decidable (IsEntryName name) :=
  inferInstanceAs (Decidable (name.toList.all _ = true))

namespace Label

/-- The label has only characters that labels are written with. -/
def Written (l : Label) : Prop := ∀ c ∈ l.text.toList, isLabelChar c = true

theorem toList_text_fresh (stem : String) (n : Nat) :
    (fresh stem n).text.toList = '.' :: 'L' :: (stem.toList ++ Nat.toDigits 10 n) := by
  show (s!".L{stem}{n}").toList = _
  simp [toString]

theorem Given.written {l : Label} (h : l.Given) : l.Written := by
  obtain ⟨stem, hstem, n, rfl⟩ := h
  have hstems : stems.all
      (fun stem => stem.toList.all fun c => c.isAlphanum || c = '_' || c = '.') = true := by decide
  intro c hc
  rw [toList_text_fresh] at hc
  simp only [List.mem_cons, List.mem_append] at hc
  rcases hc with rfl | rfl | hc | hc
  · exact isLabelChar_of_ascii rfl
  · exact isLabelChar_of_ascii rfl
  · exact isLabelChar_of_ascii (List.all_eq_true.1 (List.all_eq_true.1 hstems stem hstem) c hc)
  · exact isLabelChar_of_mem_toDigits hc

theorem Given.isHandler_eq_false {l : Label} (h : l.Given) : isHandler l.text = false := by
  obtain ⟨stem, hstem, n, rfl⟩ := h
  have hstems : ∀ stem ∈ stems, stem.toList.head?.any (· != 't') = true := by decide
  unfold isHandler
  rw [toList_text_fresh]
  cases hcs : stem.toList with
  | nil => simpa [hcs] using hstems stem hstem
  | cons c cs =>
    have hc : c ≠ 't' := by simpa [hcs] using hstems stem hstem
    simp [List.isPrefixOf, hc.symm]

theorem written_trap {kind : String} {code : Int} (h : trapCode? kind = some code) :
    (trap kind).Written := by
  have hkinds : ["div_zero", "unbound", "neg_exp"].all (fun kind =>
      (trap kind).text.toList.all fun c => c.isAlphanum || c = '_' || c = '.') = true := by decide
  have hkind : kind ∈ ["div_zero", "unbound", "neg_exp"] := by
    unfold trapCode? at h
    split at h <;> simp_all
  intro c hc
  exact isLabelChar_of_ascii (List.all_eq_true.1 (List.all_eq_true.1 hkinds kind hkind) c hc)

theorem isHandler_trap (kind : String) : isHandler (trap kind).text = true := by
  simp [isHandler, text, toString, List.isPrefixOf]

theorem written_named {name : String} (h : IsEntryName name) : (named name).Written := by
  intro c hc
  rw [isLabelChar, List.all_eq_true.1 h c hc, Bool.true_or]

/-- The names of the generator's own labels begin with a dot. -/
theorem head?_text_of_ne_named {l : Label} (h : ∀ name, l ≠ named name) :
    l.text.toList.head? = some '.' := by
  cases l with
  | fresh stem n => rw [toList_text_fresh]; rfl
  | trap kind => simp [text, toString]
  | named name => exact absurd rfl (h name)

end Label

/-- An entry does not begin with a dot. -/
theorem IsEntryName.head?_ne {name : String} (h : IsEntryName name) :
    name.toList.head? ≠ some '.' := by
  intro hhead
  have hname := List.all_eq_true.1 h '.' (List.mem_of_mem_head? hhead)
  rw [isAlphanumeric_of_isSign rfl] at hname
  cases hname

theorem IsEntryName.isHandler_eq_false {name : String} (h : IsEntryName name) :
    isHandler name = false := by
  have hne := h.head?_ne
  unfold isHandler
  cases hcs : name.toList with
  | nil => rfl
  | cons c cs =>
    have hc : c ≠ '.' := by simpa [hcs] using hne
    simp [List.isPrefixOf, hc.symm]

end Assembly

end Imp32
