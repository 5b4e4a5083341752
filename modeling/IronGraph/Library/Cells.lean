import IronGraph.Library.Census

/-!
Changing the cells of a map at several keys, each at most once; the values of a map as a multiset; and
membership in ordered sets whose order is an equality test.
-/

namespace OrderedMap

open Std List ExtTreeMap

variable {κ ν ι : Type} [Ord κ] [TransOrd κ] [LawfulEqOrd κ] {map : ExtTreeMap κ ν} {key other : κ}

theorem getElem?_alter_other {change : Option ν → Option ν} (apart : key ≠ other) :
    (map.alter key change)[other]? = map[other]? := by
  rw [getElem?_alter, if_neg]
  rwa [LawfulEqCmp.compare_eq_iff_eq]

def alterAll (cell : ι → κ) (change : ι → Option ν → Option ν) (map : ExtTreeMap κ ν) (items : List ι) :
    ExtTreeMap κ ν :=
  items.foldl (fun changed item => changed.alter (cell item) (change item)) map

theorem getElem?_alterAll_outside {α : Type} {items : List α} {cell : α → κ}
    {change : α → Option ν → Option ν} (outside : ∀ item ∈ items, cell item ≠ key) :
    (alterAll cell change map items)[key]? = map[key]? := by
  unfold alterAll
  induction items generalizing map with
  | nil => rfl
  | cons item rest ih =>
    rw [foldl_cons, ih fun other mem => outside other (mem_cons_of_mem _ mem)]
    exact getElem?_alter_other (outside item mem_cons_self)

theorem getElem?_alterAll {items : List ι} {item : ι} {change : ι → Option ν → Option ν}
    (cell : ι → κ) (distinct : (items.map cell).Nodup) (mem : item ∈ items) :
    (alterAll cell change map items)[cell item]? = change item map[cell item]? := by
  induction items generalizing map with
  | nil => cases mem
  | cons first rest ih =>
    rw [map_cons, nodup_cons] at distinct
    change (alterAll cell change (map.alter (cell first) (change first)) rest)[cell item]? = _
    rcases mem_cons.mp mem with rfl | later
    · rw [getElem?_alterAll_outside, getElem?_alter_self]
      intro other has same
      exact distinct.1 (mem_map.mpr ⟨other, has, same⟩)
    · rw [ih distinct.2 later, getElem?_alter_other]
      intro same
      exact distinct.1 (mem_map.mpr ⟨item, later, same.symm⟩)

theorem values_insert_perm (value : ν) (absent : map[key]? = none) :
    (map.insert key value).values.Perm (value :: map.values) := by
  rw [values_eq_map_toList, values_eq_map_toList]
  exact (toList_insert_perm value absent).map _

theorem values_erase_perm {value : ν} (has : map[key]? = some value) :
    map.values.Perm (value :: (map.erase key).values) := by
  rw [values_eq_map_toList, values_eq_map_toList]
  exact (toList_erase_perm has).map _

omit [LawfulEqOrd κ] in
theorem length_values (map : ExtTreeMap κ ν) : map.values.length = map.size := by
  rw [values_eq_map_toList, length_map, length_toList]

theorem size_le_of_below {bound : Nat} {map : ExtTreeMap Nat ν}
    (below : ∀ key value, map[key]? = some value → key < bound) :
    map.size ≤ bound := by
  have contained : map.keys ⊆ range bound := by
    intro key mem
    obtain ⟨value, found⟩ := mem_keys.mp mem
    exact mem_range.mpr (below key value found)
  have shorter := nodup_keys.length_le_of_subset contained
  rwa [length_keys, length_range] at shorter

theorem mem_set_insert {members : ExtTreeSet κ} : other ∈ members.insert key ↔
    key = other ∨ other ∈ members := by
  rw [ExtTreeSet.mem_insert, LawfulEqCmp.compare_eq_iff_eq]

theorem mem_set_erase {members : ExtTreeSet κ} : other ∈ members.erase key ↔
    key ≠ other ∧ other ∈ members := by
  rw [ExtTreeSet.mem_erase, ne_eq, LawfulEqCmp.compare_eq_iff_eq]

omit [LawfulEqOrd κ] in
theorem nodup_set (members : ExtTreeSet κ) : members.toList.Nodup := by
  refine Pairwise.imp ?_ (ExtTreeSet.distinct_toList (t := members))
  rintro left _ apart rfl
  exact apart ReflCmp.compare_self

end OrderedMap
