import Mathlib

/-!
Sorted lists: runs of one key, collapsing repeated items, and a merge of two sorted lists that stops
early.
-/

namespace SortedMerge

open List Nat

section Runs

variable {α : Type} {items : List α}

section

variable (key : α → Nat) (sorted : items.Pairwise fun a b => key a ≤ key b) (bound : Nat)

include key sorted bound

theorem take_countP_lt :
    items.take (items.countP fun item => decide (key item < bound)) = items.filter fun item =>
      decide (key item < bound) := by
  induction items with
  | nil => rfl
  | cons item rest ih =>
    rw [pairwise_cons] at sorted
    by_cases below : key item < bound
    · rw [countP_cons_of_pos (by simpa using below), filter_cons_of_pos (by simpa using below),
        take_succ_cons, ih sorted.2]
    · have none : ∀ other ∈ item :: rest, ¬ (decide (key other < bound) = true) := by
        intro other mem
        have above : key item ≤ key other := by
          rcases mem_cons.mp mem with rfl | later
          · exact le_refl _
          · exact sorted.1 other later
        simp only [decide_eq_true_eq]
        omega
      rw [countP_eq_zero.mpr none, filter_eq_nil_iff.mpr none, take_zero]

theorem drop_countP_lt :
    items.drop (items.countP fun item => decide (key item < bound)) = items.filter fun item =>
      decide (bound ≤ key item) := by
  induction items with
  | nil => rfl
  | cons item rest ih =>
    rw [pairwise_cons] at sorted
    by_cases below : key item < bound
    · rw [countP_cons_of_pos (by simpa using below), filter_cons_of_neg (by simpa using below),
        drop_succ_cons, ih sorted.2]
    · have above : ∀ other ∈ item :: rest, bound ≤ key other := by
        intro other mem
        rcases mem_cons.mp mem with rfl | later
        · exact not_lt.mp below
        · exact le_trans (not_lt.mp below) (sorted.1 other later)
      rw [countP_eq_zero.mpr fun other mem => by simpa using above other mem,
        filter_eq_self.mpr fun other mem => by simpa using above other mem, drop_zero]

/-- The items of one key lie between the items below it and those not above it. -/
theorem slice_run : (items.take (items.countP fun item => decide (key item < bound + 1))).drop
        (items.countP fun item => decide (key item < bound)) =
      items.filter fun item => decide (key item = bound) := by
  have count : items.countP (fun item => decide (key item < bound)) =
      (items.filter fun item => decide (key item < bound + 1)).countP fun item =>
        decide (key item < bound) := by
    rw [countP_filter]
    apply countP_congr
    intro item _
    simp only [Bool.and_eq_true, decide_eq_true_eq]
    omega
  rw [take_countP_lt key sorted, count, drop_countP_lt key (sorted.filter _), filter_filter]
  apply filter_congr
  intro item _
  rw [← Bool.decide_and, decide_eq_decide]
  omega

end

end Runs

variable {α : Type} [LinearOrder α]

def collapse : List α → List α
  | [] => []
  | [item] => [item]
  | first :: second :: rest =>
    if first = second then collapse (second :: rest) else first :: collapse (second :: rest)

theorem mem_collapse (items : List α) (item : α) : item ∈ collapse items ↔ item ∈ items := by
  fun_induction collapse items with
  | case1 => rfl
  | case2 => rfl
  | case3 first rest ih =>
    rw [ih]
    simp
  | case4 first second rest apart ih => simp [ih]

theorem collapse_sortedLT (items : List α) (sorted : items.Pairwise (· ≤ ·)) :
    (collapse items).Pairwise (· < ·) := by
  fun_induction collapse items with
  | case1 => exact .nil
  | case2 item => exact pairwise_singleton _ item
  | case3 first rest ih => exact ih sorted.tail
  | case4 first second rest apart ih =>
    rw [pairwise_cons] at sorted ⊢
    refine ⟨fun other mem => ?_, ih sorted.2⟩
    have next : first < second := lt_of_le_of_ne (sorted.1 second mem_cons_self) apart
    rcases mem_cons.mp ((mem_collapse _ _).mp mem) with rfl | later
    · exact next
    · exact lt_of_lt_of_le next ((pairwise_cons.mp sorted.2).1 other later)

def takeNext : List α → List α → Option (α × List α × List α)
  | left :: base, right :: inserted =>
    if left < right then some (left, base, right :: inserted)
    else if right < left then some (right, left :: base, inserted) else some (left, base, inserted)
  | left :: base, [] => some (left, base, [])
  | [], right :: inserted => some (right, [], inserted)
  | [], [] => none

variable {base inserted base' inserted' : List α} {next : α}

theorem takeNext_cases (taken : takeNext base inserted = some (next, base', inserted')) :
    (base = next :: base' ∧ inserted' = inserted ∧ ∀ other ∈ inserted.head?, next < other) ∨
      (inserted = next :: inserted' ∧ base' = base ∧ ∀ other ∈ base.head?, next < other) ∨
      (base = next :: base' ∧ inserted = next :: inserted') := by
  match base, inserted with
  | left :: base, right :: inserted =>
    rw [takeNext] at taken
    split at taken
    next below =>
      cases taken
      exact .inl ⟨rfl, rfl, by simpa using below⟩
    next notBelow =>
      split at taken
      next above =>
        cases taken
        exact .inr (.inl ⟨rfl, rfl, by simpa using above⟩)
      next notAbove =>
        have same : left = right := le_antisymm (not_lt.mp notAbove) (not_lt.mp notBelow)
        subst same
        cases taken
        exact .inr (.inr ⟨rfl, rfl⟩)
  | left :: base, [] =>
    cases taken
    exact .inl ⟨rfl, rfl, by simp⟩
  | [], right :: inserted =>
    cases taken
    exact .inr (.inl ⟨rfl, rfl, by simp⟩)
  | [], [] => cases taken

theorem takeNext_eq_none (finished : takeNext base inserted = none) : base = [] ∧ inserted = [] := by
  match base, inserted with
  | left :: base, right :: inserted =>
    rw [takeNext] at finished
    split at finished
    · cases finished
    · split at finished <;> cases finished
  | left :: base, [] => cases finished
  | [], right :: inserted => cases finished
  | [], [] => exact ⟨rfl, rfl⟩

theorem takeNext_length (taken : takeNext base inserted = some (next, base', inserted')) :
    base'.length + inserted'.length < base.length + inserted.length := by
  rcases takeNext_cases taken
    with ⟨rfl, rfl, _⟩ | ⟨rfl, rfl, _⟩ | ⟨rfl, rfl⟩ <;> simp only [length_cons] <;> omega

def appendNew (output : List α) (next : α) : List α :=
  if output.getLast? = some next then output else output ++ [next]

/-- Merges two lists into `output` until it has `limit` items; an item equal to the last one is
dropped. -/
def mergeBounded (limit : Nat) (base inserted output : List α) : List α :=
  if output.length < limit then
    match taken : takeNext base inserted with
    | none => output
    | some (next, base', inserted') =>
      have := takeNext_length taken
      mergeBounded limit base' inserted' (appendNew output next)
  else output
termination_by base.length + inserted.length

def merged (base inserted : List α) : List α := match taken : takeNext base inserted with
  | none => []
  | some (next, base', inserted') =>
    have := takeNext_length taken
    next :: merged base' inserted'
termination_by base.length + inserted.length

theorem mem_merged (base inserted : List α) (item : α) : item ∈ merged base inserted ↔
    item ∈ base ∨ item ∈ inserted := by
  fun_induction merged base inserted with
  | case1 base inserted finished =>
    obtain ⟨rfl, rfl⟩ := takeNext_eq_none finished
    simp
  | case2 base inserted next base' inserted' taken shorter ih =>
    rw [mem_cons, ih]
    rcases takeNext_cases taken with ⟨rfl, rfl, _⟩ | ⟨rfl, rfl, _⟩ | ⟨rfl, rfl⟩
    · rw [mem_cons, or_assoc]
    · rw [mem_cons]
      tauto
    · rw [mem_cons, mem_cons]
      tauto

theorem lt_of_lt_head {items : List α} (sorted : items.Pairwise (· < ·)) {item : α}
    (below : ∀ first ∈ items.head?, item < first) : ∀ other ∈ items, item < other := by
  intro other mem
  match items, mem with
  | first :: rest, mem =>
    have start := below first rfl
    rcases mem_cons.mp mem with rfl | later
    · exact start
    · exact lt_trans start ((pairwise_cons.mp sorted).1 other later)

theorem takeNext_sorted (taken : takeNext base inserted = some (next, base', inserted'))
    (baseSorted : base.Pairwise (· < ·)) (insertedSorted : inserted.Pairwise (· < ·)) :
    base'.Pairwise (· < ·) ∧ inserted'.Pairwise (· < ·) ∧ ∀ other, other ∈ base' ∨
    other ∈ inserted' → next < other := by
  rcases takeNext_cases taken with ⟨rfl, rfl, below⟩ | ⟨rfl, rfl, below⟩ | ⟨rfl, rfl⟩
  · rw [pairwise_cons] at baseSorted
    refine ⟨baseSorted.2, insertedSorted, ?_⟩
    rintro other (left | right)
    · exact baseSorted.1 other left
    · exact lt_of_lt_head insertedSorted below other right
  · rw [pairwise_cons] at insertedSorted
    refine ⟨baseSorted, insertedSorted.2, ?_⟩
    rintro other (left | right)
    · exact lt_of_lt_head baseSorted below other left
    · exact insertedSorted.1 other right
  · rw [pairwise_cons] at baseSorted insertedSorted
    refine ⟨baseSorted.2, insertedSorted.2, ?_⟩
    rintro other (left | right)
    · exact baseSorted.1 other left
    · exact insertedSorted.1 other right

theorem merged_sortedLT (base inserted : List α) (baseSorted : base.Pairwise (· < ·))
    (insertedSorted : inserted.Pairwise (· < ·)) : (merged base inserted).Pairwise (· < ·) := by
  fun_induction merged base inserted with
  | case1 => exact .nil
  | case2 base inserted next base' inserted' taken shorter ih =>
    obtain ⟨left, right, above⟩ := takeNext_sorted taken baseSorted insertedSorted
    exact pairwise_cons.mpr ⟨fun other mem => above other ((mem_merged _ _ _).mp mem), ih left right⟩

/-- The bounded merge is an initial part of the whole one. -/
theorem mergeBounded_eq (limit : Nat) (base inserted output : List α)
    (baseSorted : base.Pairwise (· < ·)) (insertedSorted : inserted.Pairwise (· < ·))
    (below : ∀ last ∈ output.getLast?, ∀ other, other ∈ base ∨ other ∈ inserted → last < other) :
    mergeBounded limit base inserted output =
      output ++ (merged base inserted).take (limit - output.length) := by
  fun_induction mergeBounded limit base inserted output with
  | case1 base inserted output room finished =>
    rw [merged]
    split
    · simp
    next taken => cases finished.symm.trans taken
  | case2 base inserted output room next base' inserted' taken shorter ih =>
    obtain ⟨left, right, above⟩ := takeNext_sorted taken baseSorted insertedSorted
    have mem : next ∈ base ∨ next ∈ inserted := by
      rcases takeNext_cases taken with ⟨rfl, _, _⟩ | ⟨rfl, _, _⟩ | ⟨rfl, _⟩
      · exact .inl mem_cons_self
      · exact .inr mem_cons_self
      · exact .inl mem_cons_self
    have fresh : output.getLast? ≠ some next := by
      intro last
      exact lt_irrefl next (below next last next mem)
    have whole : merged base inserted = next :: merged base' inserted' := by
      rw [merged]
      split
      next finished => cases finished.symm.trans taken
      next other _ _ same =>
        cases same.symm.trans taken
        rfl
    have appended : appendNew output next = output ++ [next] := if_neg fresh
    obtain ⟨count, size⟩ : ∃ count, limit - output.length = count + 1 :=
      ⟨limit - output.length - 1, by omega⟩
    rw [ih left right ?_, appended, whole, size, take_succ_cons, append_assoc,
      length_append, length_singleton, show limit - (output.length + 1) = count by omega]
    · rfl
    · intro last here other later
      rw [appended, getLast?_concat, Option.mem_some_iff] at here
      rw [← here]
      exact above other later
  | case3 base inserted output full =>
    rw [Nat.sub_eq_zero_of_le (Nat.not_lt.mp full), take_zero, append_nil]

end SortedMerge
