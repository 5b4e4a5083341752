import IronGraph.Library.OrderedMap

/-!
Counting the entries of an ordered map by a property of their values, and how inserting and erasing one
entry changes the count.
-/

namespace OrderedMap

open Std List

variable {κ ν : Type} [Ord κ] [TransOrd κ] [LawfulEqOrd κ]

theorem nodup_toList (map : ExtTreeMap κ ν) : map.toList.Nodup := by
  refine List.Pairwise.imp ?_ (ExtTreeMap.distinct_keys_toList (t := map))
  intro left right apart same
  exact apart (by rw [same]; exact ReflCmp.compare_self)

variable {map : ExtTreeMap κ ν} {key : κ} {value : ν}

theorem mem_toList : (key, value) ∈ map.toList ↔ map[key]? = some value :=
  ExtTreeMap.mem_toList_iff_getElem?_eq_some

theorem exists_mem_toList {holds : κ × ν → Prop} : (∃ entry, entry ∈ map.toList ∧ holds entry) ↔
      ∃ (key : κ) (value : ν), map[key]? = some value ∧ holds (key, value) := by
  constructor
  · rintro ⟨⟨key, value⟩, mem, holding⟩
    exact ⟨key, value, mem_toList.mp mem, holding⟩
  · rintro ⟨key, value, found, holding⟩
    exact ⟨(key, value), mem_toList.mpr found, holding⟩

omit [LawfulEqOrd κ] in
theorem values_eq_map_toList (map : ExtTreeMap κ ν) : map.values = map.toList.map (·.2) := by
  obtain ⟨⟨inner⟩⟩ := map
  induction inner using Quotient.ind with
  | _ tree =>
    change tree.values = (DTreeMap.Const.toList tree).map (·.2)
    unfold DTreeMap.values DTreeMap.Const.toList
    rw [DTreeMap.Internal.Impl.values_eq_map_snd,
      DTreeMap.Internal.Impl.Const.toList_eq_toListModel_map, map_map]
    rfl

theorem mem_values : value ∈ map.values ↔ ∃ key : κ, map[key]? = some value := by
  rw [values_eq_map_toList, mem_map, exists_mem_toList]
  exact exists_congr fun key => ⟨fun ⟨_, found, same⟩ => same ▸ found, fun found => ⟨value, found, rfl⟩⟩

theorem isEmpty_eq_false_iff_exists : map.isEmpty = false ↔
    ∃ (key : κ) (value : ν), map[key]? = some value := by
  rw [← ExtTreeMap.isEmpty_toList, isEmpty_eq_false_iff_exists_mem]
  constructor
  · rintro ⟨⟨key, value⟩, mem⟩
    exact ⟨key, value, mem_toList.mp mem⟩
  · rintro ⟨key, value, found⟩
    exact ⟨(key, value), mem_toList.mpr found⟩

theorem toList_insert_perm (value : ν) (absent : map[key]? = none) :
    (map.insert key value).toList.Perm ((key, value) :: map.toList) := by
  have fresh : (key, value) ∉ map.toList := by
    rw [mem_toList, absent]
    exact nofun
  rw [perm_ext_iff_of_nodup (nodup_toList _) (nodup_cons.mpr ⟨fresh, nodup_toList _⟩)]
  rintro ⟨other, found⟩
  classical
  rw [mem_toList, mem_cons, mem_toList, getElem?_insert, Prod.mk.injEq]
  split
  next same =>
    subst same
    rw [absent]
    simp [eq_comm]
  next apart => simp [Ne.symm apart]

theorem toList_erase_perm (has : map[key]? = some value) :
    map.toList.Perm ((key, value) :: (map.erase key).toList) := by
  have absent : (map.erase key)[key]? = none := ExtTreeMap.getElem?_erase_self
  have restored : (map.erase key).insert key value = map := by
    apply ExtTreeMap.ext_getElem?
    intro other
    classical
    rw [getElem?_insert, getElem?_erase]
    split
    next same => rw [← same, has]
    · rfl
  have permuted := toList_insert_perm value absent
  rw [restored] at permuted
  exact permuted

def census (map : ExtTreeMap κ ν) (counted : ν → Bool) : Nat :=
  map.toList.countP fun entry => counted entry.2

theorem census_insert (absent : map[key]? = none) (counted : ν → Bool) :
    census (map.insert key value) counted = census map counted + if counted value then 1 else 0 := by
  unfold census
  rw [(toList_insert_perm value absent).countP_eq, countP_cons]

theorem census_erase (has : map[key]? = some value) (counted : ν → Bool) :
    census map counted = census (map.erase key) counted + if counted value then 1 else 0 := by
  unfold census
  rw [(toList_erase_perm has).countP_eq, countP_cons]

omit [LawfulEqOrd κ] in
theorem census_empty (counted : ν → Bool) : census (∅ : ExtTreeMap κ ν) counted = 0 := by
  simp [census]

theorem census_pos_iff {counted : ν → Bool} :
    0 < census map counted ↔ ∃ (key : κ) (value : ν), map[key]? = some value ∧
    counted value = true := by
  unfold census
  rw [countP_pos_iff]
  constructor
  · rintro ⟨⟨key, value⟩, mem, holds⟩
    exact ⟨key, value, mem_toList.mp mem, holds⟩
  · rintro ⟨key, value, found, holds⟩
    exact ⟨(key, value), mem_toList.mpr found, holds⟩

omit [LawfulEqOrd κ] in
theorem census_filter_le (map : ExtTreeMap κ ν) (keep : κ → ν → Bool) (counted : ν → Bool) :
    census (map.filter keep) counted ≤ census map counted := by
  unfold census
  rw [ExtTreeMap.toList_filter]
  exact List.Sublist.countP_le filter_sublist

omit [LawfulEqOrd κ] in
theorem ascending_unique {first second : List κ} (ascends : first.Pairwise fun a b => compare a b = .lt)
    (alsoAscends : second.Pairwise fun a b => compare a b = .lt)
    (same : ∀ key, key ∈ first ↔ key ∈ second) : first = second := by
  have distinct : ∀ {keys : List κ}, (keys.Pairwise fun a b => compare a b = .lt) → keys.Nodup := by
    intro keys ordered
    refine ordered.imp ?_
    rintro a _ below rfl
    have equal : compare a a = .eq := ReflCmp.compare_self
    cases equal.symm.trans below
  have permuted := (perm_ext_iff_of_nodup (distinct ascends) (distinct alsoAscends)).mpr same
  refine permuted.eq_of_pairwise ?_ ascends alsoAscends
  intro a b _ _ below above
  have reversed : compare b a = (compare a b).swap := OrientedCmp.eq_swap
  rw [below, above] at reversed
  cases reversed

end OrderedMap
