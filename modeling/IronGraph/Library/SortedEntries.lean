import IronGraph.Library.Census

/-!
Association lists in strictly increasing key order, searched by key: where a key is, or where it
belongs.
-/

namespace SortedEntries

open Std List

section Middle

variable {α : Type} (left right : List α) (item : α)

theorem getElem?_middle : (left ++ item :: right)[left.length]? = some item := by
  rw [getElem?_append_right (Nat.le_refl _), Nat.sub_self, getElem?_cons_zero]

theorem modify_middle (change : α → α) :
    (left ++ item :: right).modify left.length change = left ++ change item :: right := by
  induction left with
  | nil => rfl
  | cons first rest ih =>
    rw [cons_append, length_cons, modify_succ_cons, ih, cons_append]

theorem insertIdx_middle : (left ++ right).insertIdx left.length item = left ++ item :: right := by
  induction left with
  | nil => rfl
  | cons first rest ih =>
    rw [cons_append, length_cons, insertIdx_succ_cons, ih, cons_append]

theorem eraseIdx_middle : (left ++ item :: right).eraseIdx left.length = left ++ right := by
  rw [eraseIdx_append_of_length_le (Nat.le_refl _), Nat.sub_self, eraseIdx_cons_zero]

end Middle

variable {κ ν : Type} [Ord κ] {value : ν} {entry : κ × ν}

def Ascending (entries : List (κ × ν)) :
    Prop := entries.Pairwise fun left right => compare left.1 right.1 = .lt

def position (entries : List (κ × ν)) (key : κ) : Nat :=
  entries.findIdx fun entry => (compare key entry.1).isLE

/-- The contract of a binary search by key over entries in ascending order: the position of the key,
or the position it has to be inserted at. -/
def search (entries : List (κ × ν)) (key : κ) : Except Nat Nat :=
  if entries[position entries key]?.any fun entry => compare key entry.1 == .eq then
    .ok (position entries key)
  else .error (position entries key)

variable {left right entries : List (κ × ν)} {key : κ}

theorem Ascending.split (ascending : Ascending (left ++ (key, value) :: right)) :
    (∀ entry ∈ left, compare entry.1 key = .lt) ∧ ∀ entry ∈ right, compare key entry.1 = .lt := by
  rw [Ascending, pairwise_append, pairwise_cons] at ascending
  exact ⟨fun entry mem => ascending.2.2 entry mem (key, value) (mem_cons_self ..), ascending.2.1.1⟩

theorem Ascending.insert (ascending : Ascending (left ++ right))
    (before : ∀ entry ∈ left, compare entry.1 key = .lt)
    (after : ∀ entry ∈ right, compare key entry.1 = .lt) (value : ν) :
    Ascending (left ++ (key, value) :: right) := by
  rw [Ascending, pairwise_append] at ascending
  rw [Ascending, pairwise_append, pairwise_cons]
  refine ⟨ascending.1, ⟨after, ascending.2.1⟩, ?_⟩
  intro entry mem other inside
  rcases mem_cons.mp inside with rfl | later
  · exact before entry mem
  · exact ascending.2.2 entry mem other later

theorem Ascending.erase (ascending : Ascending (left ++ entry :: right)) : Ascending (left ++ right) :=
  Pairwise.sublist (Sublist.append_left (sublist_cons_self ..) left) ascending

theorem Ascending.replace (ascending : Ascending (left ++ (key, value) :: right)) (new : ν) :
    Ascending (left ++ (key, new) :: right) :=
  ascending.erase.insert ascending.split.1 ascending.split.2 new

variable [TransOrd κ]

theorem lt_irrefl (key : κ) : ¬ compare key key = .lt := by
  have same : compare key key = .eq := ReflCmp.compare_self
  rw [same]
  exact nofun

/-- The entries of a list with an entry in its place, told apart by whether they have its key. -/
theorem mem_middle {other : κ} {stored : ν} [DecidableEq κ]
    (before : ∀ entry ∈ left, compare entry.1 key = .lt)
    (after : ∀ entry ∈ right, compare key entry.1 = .lt) (value : ν) :
    (other, stored) ∈ left ++ (key, value) :: right ↔
      if other = key then stored = value else (other, stored) ∈ left ++ right := by
  simp only [mem_append, mem_cons, Prod.mk.injEq]
  split
  next same =>
    subst same
    constructor
    · rintro (inside | ⟨_, same⟩ | inside)
      · exact absurd (before _ inside) (lt_irrefl other)
      · exact same
      · exact absurd (after _ inside) (lt_irrefl other)
    · exact fun same => .inr (.inl ⟨rfl, same⟩)
  next apart => simp [apart]

theorem take_position_lt (mem : entry ∈ entries.take (position entries key)) :
    compare entry.1 key = .lt := by
  obtain ⟨index, inside, rfl⟩ := mem_take_iff_getElem.mp mem
  have before := not_of_lt_findIdx (Nat.lt_of_lt_of_le inside (Nat.min_le_left ..))
  rw [Ordering.isLE_eq_false] at before
  exact OrientedCmp.gt_iff_lt.mp before

theorem ascending_toList (map : ExtTreeMap κ ν) : Ascending map.toList := ExtTreeMap.ordered_keys_toList

theorem Ascending.mem_unique {first second : ν} (ascending : Ascending entries)
    (memberFirst : (key, first) ∈ entries) (memberSecond : (key, second) ∈ entries) :
    first = second := by
  obtain ⟨left, right, rfl⟩ := append_of_mem memberFirst
  obtain ⟨before, after⟩ := ascending.split
  rw [mem_append, mem_cons] at memberSecond
  rcases memberSecond with inside | same | inside
  · exact absurd (before _ inside) (lt_irrefl key)
  · exact (congrArg Prod.snd same).symm
  · exact absurd (after _ inside) (lt_irrefl key)

/-- Two ascending lists with the same entries are equal. -/
theorem Ascending.eq_of_mem_iff {first second : List (κ × ν)} (ascendingFirst : Ascending first)
    (ascendingSecond : Ascending second) (same : ∀ entry, entry ∈ first ↔ entry ∈ second) :
    first = second := by
  have distinct : ∀ {entries : List (κ × ν)}, Ascending entries → entries.Nodup := by
    intro entries ascending
    refine Pairwise.imp ?_ ascending
    rintro left right below rfl
    exact lt_irrefl _ below
  refine Perm.eq_of_pairwise ?_ ascendingFirst ascendingSecond
    ((perm_ext_iff_of_nodup (distinct ascendingFirst) (distinct ascendingSecond)).mpr same)
  intro left right _ _ below above
  exact absurd (TransCmp.lt_trans below above) (lt_irrefl _)

variable [LawfulEqOrd κ]

variable {index : Nat}

omit [TransOrd κ] in
theorem search_eq_ok (found : search entries key = .ok index) :
    ∃ left value right, entries = left ++ (key, value) :: right ∧ left.length = index := by
  unfold search at found
  split at found
  next here =>
    rw [Except.ok.injEq] at found
    subst found
    obtain ⟨⟨stored, value⟩, present, same⟩ := (Option.any_eq_true _ _).mp here
    rw [beq_iff_eq, LawfulEqCmp.compare_eq_iff_eq] at same
    subst same
    obtain ⟨inside, get⟩ := List.getElem?_eq_some_iff.mp present
    refine ⟨entries.take (position entries key), value, entries.drop (position entries key + 1), ?_,
      length_take_of_le (Nat.le_of_lt inside)⟩
    rw [← get, ← drop_eq_getElem_cons inside, take_append_drop]
  · cases found

theorem search_eq_error (ascending : Ascending entries) (missed : search entries key = .error index) :
    ∃ left right, entries = left ++ right ∧ left.length = index ∧
      (∀ entry ∈ left, compare entry.1 key = .lt) ∧ ∀ entry ∈ right, compare key entry.1 = .lt := by
  unfold search at missed
  split at missed
  · cases missed
  next elsewhere =>
    rw [Except.error.injEq] at missed
    refine ⟨entries.take index, entries.drop index, (take_append_drop ..).symm, ?_, ?_, ?_⟩
    · rw [length_take_of_le]
      exact missed ▸ findIdx_le_length
    · intro entry mem
      exact take_position_lt (missed ▸ mem)
    · rw [missed] at elsewhere
      cases rest : entries.drop index with
      | nil => exact nofun
      | cons first others =>
        have present : entries[index]? = some first := by rw [← List.head?_drop, rest, List.head?_cons]
        obtain ⟨inside, get⟩ := List.getElem?_eq_some_iff.mp present
        have reached : (compare key first.1).isLE := by
          subst missed get
          unfold position
          exact findIdx_getElem (p := fun entry : κ × ν => (compare key entry.1).isLE)
        have apart : compare key first.1 ≠ .eq := by simpa [present] using elsewhere
        have below : compare key first.1 = .lt := by
          cases order : compare key first.1 with
          | lt => rfl
          | eq => exact absurd order apart
          | gt => simp [order] at reached
        have tail : Ascending (first :: others) := by
          rw [← rest]
          exact List.Pairwise.sublist (drop_sublist ..) ascending
        intro entry mem
        rcases mem_cons.mp mem with rfl | later
        · exact below
        · exact TransCmp.lt_trans below ((pairwise_cons.mp tail).1 entry later)

theorem search_cases (ascending : Ascending entries) (key : κ) :
    (∃ left value right, entries = left ++ (key, value) :: right ∧
      search entries key = .ok left.length) ∨
      ∃ left right, entries = left ++ right ∧ search entries key = .error left.length ∧
        (∀ entry ∈ left, compare entry.1 key = .lt) ∧ ∀ entry ∈ right, compare key entry.1 = .lt := by
  cases outcome : search entries key with
  | ok index =>
    obtain ⟨left, value, right, cut, rfl⟩ := search_eq_ok outcome
    exact .inl ⟨left, value, right, cut, rfl⟩
  | error index =>
    obtain ⟨left, right, cut, rfl, before, after⟩ := search_eq_error ascending outcome
    exact .inr ⟨left, right, cut, rfl, before, after⟩

end SortedEntries
