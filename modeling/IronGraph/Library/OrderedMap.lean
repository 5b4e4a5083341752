import Mathlib

/-!
Facts about ordered maps that the standard library states only for one key at a time.
-/

namespace OrderedMap

open Std

variable {κ ν : Type} [Ord κ] [TransOrd κ] [LawfulEqOrd κ] {key other : κ}
  {value found : ν}

theorem getElem?_insert [DecidableEq κ] (map : ExtTreeMap κ ν) (key other : κ) (value : ν) :
    (map.insert key value)[other]? = if key = other then some value else map[other]? := by
  rw [ExtTreeMap.getElem?_insert]
  simp only [LawfulEqCmp.compare_eq_iff_eq]

theorem getElem?_erase [DecidableEq κ] (map : ExtTreeMap κ ν) (key other : κ) :
    (map.erase key)[other]? = if key = other then none else map[other]? := by
  rw [ExtTreeMap.getElem?_erase]
  simp only [LawfulEqCmp.compare_eq_iff_eq]

variable {map : ExtTreeMap κ ν}

-- A write leaves every key alone that differs from its own in some `part`.
theorem getElem?_insert_apart {α : Sort*} [DecidableEq κ] (part : κ → α)
    (apart : part other ≠ part key) :
    (map.insert key value)[other]? = map[other]? := by
  rw [getElem?_insert, if_neg]
  rintro rfl
  exact apart rfl

theorem getElem?_erase_apart {α : Sort*} [DecidableEq κ] (part : κ → α)
    (apart : part other ≠ part key) :
    (map.erase key)[other]? = map[other]? := by
  rw [getElem?_erase, if_neg]
  rintro rfl
  exact apart rfl

theorem ext_of_part {α : Type*} {first second : ExtTreeMap κ ν} (part : ν → α)
    (parts : ∀ key : κ, first[key]?.map part = second[key]?.map part)
    (same : ∀ (key : κ) one two, first[key]? = some one → second[key]? = some two →
    part one = part two → one = two) : first = second := by
  apply ExtTreeMap.ext_getElem?
  intro key
  have alike := parts key
  cases found : first[key]? with
  | none =>
    rw [found, Option.map_none, eq_comm, Option.map_eq_none_iff] at alike
    rw [alike]
  | some one =>
    rw [found, Option.map_some, eq_comm, Option.map_eq_some_iff] at alike
    obtain ⟨two, there, equal⟩ := alike
    rw [there, same key one two found there equal.symm]

theorem insert_eq_some [DecidableEq κ] : (map.insert key value)[other]? = some found ↔
      key = other ∧ value = found ∨ key ≠ other ∧ map[other]? = some found := by
  rw [getElem?_insert]
  split <;> simp [*]

theorem erase_eq_some [DecidableEq κ] :
    (map.erase key)[other]? = some found ↔ key ≠ other ∧ map[other]? = some found := by
  rw [getElem?_erase]
  split <;> simp [*]

theorem foldl_insert_eq_some [DecidableEq κ] {entries : List (κ × ν)} {key : κ} {value : ν}
    (functional : ∀ {key first second}, (key, first) ∈ entries → (key, second) ∈ entries →
      first = second) :
    (entries.foldl (fun map entry => map.insert entry.1 entry.2) (∅ : ExtTreeMap κ ν))[key]? =
      some value ↔
      (key, value) ∈ entries := by
  induction entries using List.reverseRecOn with
  | nil => simp
  | append_singleton entries last ih =>
    have inherited := ih fun one other =>
      functional (List.mem_append_left _ one) (List.mem_append_left _ other)
    rw [List.foldl_append, List.foldl_cons, List.foldl_nil, insert_eq_some, inherited, List.mem_append,
      List.mem_singleton, Prod.ext_iff]
    constructor
    · rintro (⟨same, equal⟩ | ⟨_, mem⟩)
      · exact .inr ⟨same.symm, equal.symm⟩
      · exact .inl mem
    · rintro (mem | ⟨same, equal⟩)
      · by_cases same : last.1 = key
        · subst same
          exact .inl ⟨rfl, functional (List.mem_append_right _ List.mem_cons_self)
            (List.mem_append_left _ mem)⟩
        · exact .inr ⟨same, mem⟩
      · exact .inl ⟨same.symm, equal.symm⟩

omit [LawfulEqOrd κ] in
theorem mem_iff_exists : key ∈ map ↔ ∃ value, map[key]? = some value := by
  rw [ExtTreeMap.mem_iff_isSome_getElem?, Option.isSome_iff_exists]

omit [LawfulEqOrd κ] in
theorem contains_iff_exists : map.contains key = true ↔ ∃ value, map[key]? = some value :=
  ExtTreeMap.contains_iff_mem.trans mem_iff_exists

theorem mem_keys : key ∈ map.keys ↔ ∃ value, map[key]? = some value :=
  ExtTreeMap.mem_keys.trans mem_iff_exists

theorem erase_absent (absent : map[key]? = none) : map.erase key = map := by
  apply ExtTreeMap.ext_getElem?
  intro other
  rw [ExtTreeMap.getElem?_erase]
  split
  next same =>
    rw [LawfulEqCmp.compare_eq_iff_eq] at same
    rw [← same, absent]
  · rfl

theorem getElem?_filter_kept {keep : κ → ν → Bool} (kept : ∀ value, keep key value = true) :
    (map.filter keep)[key]? = map[key]? := by
  rw [ExtTreeMap.getElem?_filter']
  cases map[key]? with
  | none => rfl
  | some value => rw [Option.filter_some, if_pos (kept value)]

def eraseKeys (map : ExtTreeMap κ ν) (keys : List κ) : ExtTreeMap κ ν :=
  keys.foldl (fun remaining key => remaining.erase key) map

theorem getElem?_eraseKeys [DecidableEq κ] (map : ExtTreeMap κ ν) (keys : List κ) (key : κ) :
    (eraseKeys map keys)[key]? = if key ∈ keys then none else map[key]? := by
  unfold eraseKeys
  induction keys generalizing map with
  | nil => simp
  | cons first rest ih =>
    rw [List.foldl_cons, ih, ExtTreeMap.getElem?_erase]
    by_cases later : key ∈ rest
    · simp [later]
    · simp only [later, if_false, List.mem_cons, or_false, LawfulEqCmp.compare_eq_iff_eq]
      simp only [eq_comm]

theorem getElem?_eraseKeys_filter [DecidableEq κ] (map : ExtTreeMap κ ν) (leaves : κ → Bool) (key : κ) :
    (eraseKeys map (map.keys.filter leaves))[key]? = if leaves key = true then none else map[key]? := by
  rw [getElem?_eraseKeys]
  cases found : map[key]? with
  | none => simp
  | some value =>
    have has : key ∈ map := by
      rw [ExtTreeMap.mem_iff_isSome_getElem?, found]
      rfl
    simp [List.mem_filter, has]

omit [LawfulEqOrd κ] in
theorem size_eraseKeys_le (map : ExtTreeMap κ ν) (keys : List κ) :
    (eraseKeys map keys).size ≤ map.size := by
  unfold eraseKeys
  induction keys generalizing map with
  | nil => simp
  | cons first rest ih => exact Nat.le_trans (ih _) ExtTreeMap.size_erase_le

omit [LawfulEqOrd κ] in
theorem size_eraseKeys_lt {keys : List κ} (nonempty : keys ≠ []) (has : ∀ key ∈ keys, key ∈ map) :
    (eraseKeys map keys).size < map.size := by
  cases keys with
  | nil => exact absurd rfl nonempty
  | cons first rest =>
    have mem : first ∈ map := has first (by simp)
    have shrunk := size_eraseKeys_le (map.erase first) rest
    have occupied : 0 < map.size := by
      rcases Nat.eq_zero_or_pos map.size with zero | positive
      · rw [ExtTreeMap.eq_empty_iff_size_eq_zero.mpr zero] at mem
        exact absurd mem ExtTreeMap.not_mem_empty
      · exact positive
    rw [ExtTreeMap.size_erase, ExtTreeMap.contains_iff_mem.mpr mem, if_pos rfl] at shrunk
    change (eraseKeys (map.erase first) rest).size < map.size
    omega

end OrderedMap
