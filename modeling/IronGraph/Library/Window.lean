import IronGraph.Library.OrderedMap

/-!
A sliding window of positions: values are pushed at the tail, popped at the head and replaced in
place, and they are kept in a map from position to value. A filled window is a list that remembers
where it starts.
-/

namespace Sliding

open Std List Option

theorem getElem?_filterMap_range' {α : Type} (found : Nat → Option α) (start count index : Nat)
    (has : ∀ pos, start ≤ pos → pos < start + count → (found pos).isSome)
    (inside : index < count) :
    ((range' start count).filterMap found)[index]? = found (start + index) := by
  induction count generalizing start index with
  | zero => omega
  | succ count ih =>
    obtain ⟨first, here⟩ := isSome_iff_exists.mp (has start (by omega) (by omega))
    rw [range'_succ, filterMap_cons_some here]
    cases index with
    | zero => simp [here]
    | succ index =>
      rw [getElem?_cons_succ, ih (start + 1) index ?_ (by omega)]
      · congr 1
        omega
      · intro pos lower upper
        exact has pos (by omega) (by omega)

theorem takeWhile_eq_filter_of_pairwise {α : Type} (keep : α → Bool) {items : List α}
    (closed : items.Pairwise fun prior later => keep later = true → keep prior = true) :
    items.takeWhile keep = items.filter keep := by
  induction closed with
  | nil => rfl
  | @cons first rest below _ ih =>
    rw [takeWhile_cons, filter_cons]
    split
    · rw [ih]
    next dropped =>
      exact (filter_eq_nil_iff.mpr fun later mem kept => dropped (below later mem kept)).symm

structure Window (α : Type) where
  values : ExtTreeMap Nat α
  head : Nat
  tail : Nat

namespace Window

variable {α : Type} {pos front : Nat}

def empty : Window α := { values := ∅, head := 0, tail := 0 }

variable (window : Window α)

def size : Nat := window.tail - window.head

def itemsFrom (front : Nat) : List α :=
  (range' front (window.tail - front)).filterMap fun position => window.values[position]?

def items : List α := window.itemsFrom window.head

def pushBack (value : α) : Window α :=
  { window with values := window.values.insert window.tail value, tail := window.tail + 1 }

def popFront : Option (α × Window α) := window.values[window.head]?.map fun value =>
    (value, { window with values := window.values.erase window.head, head := window.head + 1 })

def set (position : Nat) (value : α) : Window α :=
  { window with values := window.values.insert position value }

def clear : Window α := { window with values := ∅, head := window.tail }

structure Filled (window : Window α) : Prop where
  ordered : window.head ≤ window.tail
  occupied : ∀ position, (window.values[position]?).isSome ↔
    window.head ≤ position ∧ position < window.tail

theorem empty_filled : (empty : Window α).Filled := ⟨Nat.le_refl _, fun pos => by simp [empty]⟩

variable {window : Window α} (filled : window.Filled)
include filled

theorem Filled.absent (outside : pos < window.head ∨ window.tail ≤ pos) :
    window.values[pos]? = none := by
  rw [← not_isSome_iff_eq_none, filled.occupied]
  omega

/-- The items of a filled window are its values, in the order of their positions. -/
theorem Filled.getElem?_itemsFrom (inside : window.head ≤ front) (index : Nat) :
    (window.itemsFrom front)[index]? = window.values[front + index]? := by
  have has : ∀ pos, front ≤ pos → pos < front + (window.tail - front) →
      (window.values[pos]?).isSome := by
    intro pos lower upper
    rw [filled.occupied]
    omega
  by_cases reached : index < window.tail - front
  · exact getElem?_filterMap_range' _ front _ index has reached
  · rw [filled.absent (.inr (by omega)), getElem?_eq_none_iff]
    have bound := length_filterMap_le (fun pos =>
      window.values[pos]?) (range' front (window.tail - front))
    rw [length_range'] at bound
    exact Nat.le_trans bound (by omega)

theorem Filled.getElem?_items (index : Nat) :
    window.items[index]? = window.values[window.head + index]? :=
  filled.getElem?_itemsFrom (Nat.le_refl _) index

theorem Filled.itemsFrom_eq_drop (inside : window.head ≤ front) :
    window.itemsFrom front = window.items.drop (front - window.head) := by
  apply ext_getElem?
  intro index
  rw [filled.getElem?_itemsFrom inside, getElem?_drop, filled.getElem?_items]
  congr 1
  omega

theorem Filled.length_items : window.items.length = window.size := by
  have ordered := filled.ordered
  apply Nat.le_antisymm
  · rw [← getElem?_eq_none_iff, filled.getElem?_items]
    exact filled.absent (.inr (by unfold size; omega))
  · by_contra shorter
    have missing := filled.getElem?_items window.items.length
    rw [getElem?_eq_none_iff.mpr (Nat.le_refl _), eq_comm, ← not_isSome_iff_eq_none,
      filled.occupied] at missing
    unfold size at shorter
    omega

theorem Filled.pushBack (value : α) :
    (window.pushBack value).Filled ∧ (window.pushBack value).items = window.items ++ [value] := by
  have ordered := filled.ordered
  have pushed : (window.pushBack value).Filled := by
    refine ⟨Nat.le_succ_of_le ordered, fun pos => ?_⟩
    simp only [Window.pushBack, ExtTreeMap.getElem?_insert, LawfulEqCmp.compare_eq_iff_eq]
    split
    next same => simp only [isSome_some, true_iff]; omega
    next other =>
      rw [filled.occupied]
      omega
  refine ⟨pushed, ext_getElem? fun index => ?_⟩
  have length := filled.length_items
  unfold size at length
  rw [pushed.getElem?_items]
  simp only [Window.pushBack, ExtTreeMap.getElem?_insert, LawfulEqCmp.compare_eq_iff_eq]
  split
  next same =>
    have last : index = window.items.length := by omega
    rw [last, getElem?_append_right (Nat.le_refl _)]
    simp
  next other =>
    rw [← filled.getElem?_items]
    by_cases inside : index < window.items.length
    · rw [getElem?_append_left inside]
    · rw [getElem?_eq_none_iff.mpr (by omega), eq_comm, getElem?_eq_none_iff]
      simp only [length_append, length_singleton]
      omega

def pushAll (window : Window α) (values : List α) : Window α := values.foldl pushBack window

theorem Filled.pushAll (values : List α) :
    (window.pushAll values).Filled ∧ (window.pushAll values).items = window.items ++ values ∧
      (window.pushAll values).head = window.head ∧
      (window.pushAll values).tail = window.tail + values.length := by
  induction values generalizing window with
  | nil => exact ⟨filled, by simp [pushAll], rfl, rfl⟩
  | cons value rest ih =>
    obtain ⟨pushed, items⟩ := filled.pushBack value
    obtain ⟨after, appended, head, tail⟩ := ih pushed
    refine ⟨after, ?_, head, ?_⟩
    · calc (window.pushAll (value :: rest)).items = (window.pushBack value).items ++ rest := appended
        _ = window.items ++ value :: rest := by rw [items, append_assoc, singleton_append]
    · calc (window.pushAll (value :: rest)).tail = window.tail + 1 + rest.length := tail
        _ = window.tail + (value :: rest).length := by rw [length_cons]; omega

theorem Filled.popFront {value : α} {rest : List α} (front : window.items = value :: rest) :
    ∃ after, window.popFront = some (value, after) ∧ after.Filled ∧ after.items = rest ∧
      after.head = window.head + 1 ∧ after.tail = window.tail ∧
      after.values = window.values.erase window.head := by
  have found := filled.getElem?_items 0
  simp only [front, getElem?_cons_zero, Nat.add_zero] at found
  have occupied := (filled.occupied window.head).mp (by simp [← found])
  have after : ({ window with values := window.values.erase window.head, head := window.head + 1 } :
      Window α).Filled := by
    refine ⟨occupied.2, fun pos => ?_⟩
    simp only [ExtTreeMap.getElem?_erase, LawfulEqCmp.compare_eq_iff_eq]
    split
    next same => simp only [isSome_none, Bool.false_eq_true, false_iff]; omega
    next other =>
      rw [filled.occupied]
      omega
  refine ⟨_, by rw [Window.popFront, ← found, Option.map_some], after, ?_, rfl, rfl, rfl⟩
  apply ext_getElem?
  intro index
  have next := filled.getElem?_items (index + 1)
  rw [front, getElem?_cons_succ] at next
  rw [after.getElem?_items, next]
  simp only [ExtTreeMap.getElem?_erase, LawfulEqCmp.compare_eq_iff_eq]
  rw [if_neg (by omega)]
  congr 1
  omega

theorem Filled.set (value : α) (inside : window.head ≤ pos ∧ pos < window.tail) :
    (window.set pos value).Filled ∧
      (window.set pos value).items = window.items.set (pos - window.head) value := by
  have kept : (window.set pos value).Filled := by
    refine ⟨filled.ordered, fun other => ?_⟩
    simp only [Window.set, ExtTreeMap.getElem?_insert, LawfulEqCmp.compare_eq_iff_eq]
    split
    next same => simp only [isSome_some, true_iff]; omega
    · exact filled.occupied other
  refine ⟨kept, ext_getElem? fun index => ?_⟩
  have length := filled.length_items
  unfold size at length
  rw [kept.getElem?_items, getElem?_set]
  simp only [Window.set, ExtTreeMap.getElem?_insert, LawfulEqCmp.compare_eq_iff_eq]
  by_cases same : pos = window.head + index
  · rw [if_pos same, if_pos (by omega), if_pos (by omega)]
  · rw [if_neg same, if_neg (by omega), filled.getElem?_items]

omit filled

theorem clear_filled (window : Window α) : window.clear.Filled := ⟨Nat.le_refl _, fun pos => by
    simp only [clear, ExtTreeMap.getElem?_empty, isSome_none, Bool.false_eq_true, false_iff]
    omega⟩

theorem items_clear (window : Window α) : window.clear.items = [] := by
  simp [items, itemsFrom, clear]

end Window

end Sliding
