import Mathlib

/-!
Numbered slots: a list that grows by one slot at its end, and whose slots are replaced in place.
-/

namespace Slots

open List

variable {α : Type} {slots : List α} {row : Nat} {old : α}

theorem getElem?_set_of_lt (inside : row < slots.length) (value : α) (other : Nat) :
    (slots.set row value)[other]? = if row = other then some value else slots[other]? := by
  rw [getElem?_set]
  by_cases here : row = other
  · subst here
    simp [inside]
  · simp [here]

theorem getElem?_modify (slots : List α) (row : Nat) (change : α → α) (other : Nat) :
    (slots.modify row change)[other]? = if row = other then
      slots[other]?.map change else slots[other]? := by
  rw [List.getElem?_modify]
  split <;> simp

theorem modify_eq_set (has : slots[row]? = some old) (change : α → α) :
    slots.modify row change = slots.set row (change old) := by
  have inside := (List.getElem?_eq_some_iff.mp has).1
  refine List.ext_getElem? fun other => ?_
  rw [getElem?_modify, getElem?_set_of_lt inside]
  by_cases here : row = other
  · subst here
    simp [has]
  · simp [here]

theorem getElem?_modify_of_has (has : slots[row]? = some old) (change : α → α) (other : Nat) :
    (slots.modify row change)[other]? = if row = other then some (change old) else slots[other]? := by
  rw [modify_eq_set has, getElem?_set_of_lt (List.getElem?_eq_some_iff.mp has).1]

theorem countP_set (has : slots[row]? = some old) (value : α) (holds : α → Bool) :
    (slots.set row value).countP holds + (if holds old then 1 else 0) =
      slots.countP holds + if holds value then 1 else 0 := by
  induction slots generalizing row with
  | nil => cases has
  | cons first rest ih =>
    cases row with
    | zero =>
      obtain rfl : first = old := Option.some.inj has
      rw [set_cons_zero, countP_cons, countP_cons]
      omega
    | succ row =>
      rw [set_cons_succ, countP_cons, countP_cons]
      have later := @ih row has
      omega

end Slots
