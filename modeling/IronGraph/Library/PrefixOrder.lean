import IronGraph.Library.OrderedMap

/-!
The lists that extend one stem form an interval of the lexicographic order, so an ordered scan that
starts at the stem and stops at the first list outside it visits exactly the extensions of the stem.
-/

namespace PrefixOrder

open Std OrderedMap List

variable {α : Type} [Ord α] [TransOrd α] [LawfulEqOrd α] [DecidableEq α]

def startsWith (stem key : List α) : Bool := stem.isPrefixOf key

variable {stem key : List α}

omit [Ord α] [TransOrd α] [LawfulEqOrd α] in
@[simp] theorem startsWith_iff : startsWith stem key = true ↔ stem <+: key := by
  simp [startsWith]

omit [Ord α] [TransOrd α] [LawfulEqOrd α] in
@[simp] theorem startsWith_eq_false : startsWith stem key = false ↔ ¬ stem <+: key := by
  rw [← startsWith_iff, Bool.not_eq_true]

omit [TransOrd α] [DecidableEq α] in
theorem stem_le (extended : stem <+: key) : (compare stem key).isLE := by
  induction stem generalizing key with
  | nil => exact List.isLE_compare_nil_left
  | cons head tail ih =>
    obtain ⟨rest, rfl⟩ := extended
    have below := ih (List.prefix_append tail rest)
    simpa [List.compare_cons_cons, ReflCmp.compare_self] using below

omit [DecidableEq α] in
theorem prefix_of_between {lower upper : List α} (above : (compare stem lower).isLE)
    (below : (compare lower upper).isLE) (extended : stem <+: upper) : stem <+: lower := by
  induction stem generalizing lower upper with
  | nil => exact nil_prefix
  | cons head tail ih =>
    obtain ⟨rest, rfl⟩ := extended
    cases lower with
    | nil => simp [List.compare_cons_nil] at above
    | cons first others =>
      rw [List.compare_cons_cons, Ordering.isLE_then_iff_or] at above
      rw [List.cons_append, List.compare_cons_cons, Ordering.isLE_then_iff_or] at below
      have same : first = head := by
        apply LawfulEqOrd.eq_of_compare
        rcases below with less | ⟨equal, _⟩
        · rcases above with more | ⟨equal, _⟩
          · exact absurd (TransCmp.lt_trans less more) (by simp [ReflCmp.compare_self])
          · rw [OrientedCmp.eq_symm equal]
        · exact equal
      subst same
      simp only [ReflCmp.compare_self, true_and, reduceCtorEq, false_or] at above below
      exact cons_prefix_cons.mpr ⟨rfl, ih above below (prefix_append tail rest)⟩

/-- In ascending order, nothing after the first key outside the stem is inside it. -/
theorem takeWhile_eq_filter {ι : Type} (key : ι → List α) {items : List ι}
    (ordered : items.Pairwise fun left right => compare (key left) (key right) = .lt)
    (above : ∀ item ∈ items, (compare stem (key item)).isLE) :
    items.takeWhile (fun item => startsWith stem (key item)) =
      items.filter fun item => startsWith stem (key item) := by
  induction items with
  | nil => rfl
  | cons item rest ih =>
    rw [pairwise_cons] at ordered
    by_cases inside : startsWith stem (key item) = true
    · simp only [takeWhile_cons, filter_cons, inside, if_true]
      rw [ih ordered.2 (fun other mem => above other (by simp [mem]))]
    · simp only [takeWhile_cons, filter_cons, inside, Bool.false_eq_true, if_false]
      symm
      rw [filter_eq_nil_iff]
      intro other mem later
      apply inside
      rw [startsWith_iff] at later ⊢
      apply prefix_of_between (above item (by simp)) ?_ later
      rw [ordered.1 other mem]
      rfl

/-- An ordered scan from the stem that stops at the first key outside it finds the keys under the
stem. -/
theorem scan_eq_filter {ι : Type} (stem : List α) (key : ι → List α) {items : List ι}
    (ordered : items.Pairwise fun left right => compare (key left) (key right) = .lt) :
    (items.filter fun item => (compare stem (key item)).isLE).takeWhile (fun item =>
      startsWith stem (key item)) = items.filter fun item => startsWith stem (key item) := by
  rw [takeWhile_eq_filter key (ordered.filter _) (by simp), filter_filter]
  apply filter_congr
  intro item _
  by_cases inside : startsWith stem (key item) = true
  · simp [inside, stem_le (startsWith_iff.mp inside)]
  · simp [inside]

section Maps

variable {ν : Type}

def keysFrom (stem : List α) (keys : List (List α)) : List (List α) :=
  keys.filter fun key => (compare stem key).isLE

/-- The keys an ordered scan from the stem visits before it leaves the stem. -/
def keysUnder (stem : List α) (keys : List (List α)) : List (List α) :=
  (keysFrom stem keys).takeWhile (startsWith stem)

theorem keysUnder_eq_filter (stem : List α) {keys : List (List α)}
    (ordered : keys.Pairwise fun left right => compare left right = .lt) :
    keysUnder stem keys = keys.filter (startsWith stem) := by
  exact scan_eq_filter stem id ordered

def eraseUnder (map : ExtTreeMap (List α) ν) (stem : List α) : ExtTreeMap (List α) ν :=
  eraseKeys map (keysUnder stem map.keys)

theorem getElem?_eraseUnder (map : ExtTreeMap (List α) ν) (stem key : List α) :
    (eraseUnder map stem)[key]? = if startsWith stem key then none else map[key]? := by
  unfold eraseUnder
  rw [getElem?_eraseKeys, keysUnder_eq_filter stem ExtTreeMap.ordered_keys]
  by_cases inside : startsWith stem key = true
  · by_cases has : key ∈ map
    · simp [inside, has]
    · simp [inside, has]
  · simp [inside]

end Maps

end PrefixOrder
