/-!
# Bindings

Names bound to things, in the order in which the names were first bound. Binding a name again
replaces its thing and keeps its place.
-/

namespace Imp32

/-- Pairs of a name and its thing, in the order of first binding. -/
abbrev Bindings (α : Type) := List (String × α)

namespace Bindings

variable {α : Type}

def get? (b : Bindings α) (name : String) : Option α :=
  match b with
  | [] => none
  | (key, a) :: rest => if key = name then some a else get? rest name

def has (b : Bindings α) (name : String) : Bool :=
  (b.get? name).isSome

/-- Bind a name, in its old place if it has one and last otherwise. -/
def set (b : Bindings α) (name : String) (a : α) : Bindings α :=
  match b with
  | [] => [(name, a)]
  | (key, old) :: rest => if key = name then (key, a) :: rest else (key, old) :: set rest name a

/-- Bind a name that is not bound yet, and leave one that is. -/
def setNew (b : Bindings α) (name : String) (a : α) : Bindings α :=
  if b.has name then b else b.set name a

def erase (b : Bindings α) (name : String) : Bindings α :=
  b.filter fun pair => pair.1 ≠ name

def keys (b : Bindings α) : List String :=
  b.map Prod.fst

@[simp] theorem get?_nil (name : String) : get? ([] : Bindings α) name = none := rfl

theorem get?_set (b : Bindings α) (name other : String) (a : α) :
    (b.set name a).get? other = if name = other then some a else b.get? other := by
  induction b with
  | nil => simp [set, get?]
  | cons pair rest ih =>
    obtain ⟨key, old⟩ := pair
    by_cases h : key = name
    · subst h
      by_cases h' : key = other <;> simp [set, get?, h']
    · by_cases h' : key = other
      · subst h'
        simp [set, get?, h, Ne.symm h]
      · simp [set, get?, h, h', ih]

theorem get?_setNew (b : Bindings α) (name other : String) (a : α) :
    (b.setNew name a).get? other =
      if name = other then some ((b.get? other).getD a) else b.get? other := by
  unfold setNew has
  by_cases h : name = other
  · subst h
    cases hb : b.get? name <;> simp [hb, get?_set]
  · cases hb : b.get? name <;> simp [h, get?_set]

theorem get?_erase (b : Bindings α) (name other : String) :
    (b.erase name).get? other = if name = other then none else b.get? other := by
  induction b with
  | nil => simp [erase]
  | cons pair rest ih =>
    obtain ⟨key, a⟩ := pair
    unfold erase at ih ⊢
    by_cases h : key = name
    · subst h
      simp only [ne_eq, not_true_eq_false, decide_false, Bool.false_eq_true, not_false_eq_true,
        List.filter_cons_of_neg, ih, get?]
      split <;> rfl
    · simp only [ne_eq, h, not_false_eq_true, decide_true, List.filter_cons_of_pos, get?]
      by_cases h' : key = other
      · subst h'
        simp [Ne.symm h]
      · simpa [h'] using ih

end Bindings

end Imp32
