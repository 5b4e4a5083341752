import IronGraph.Library.Census

/-!
A multiset kept as an ordered map from its members to their positive multiplicities. The map is
determined by the multiset, so whatever is read off the map depends on nothing else.
-/

namespace Tally

open Std OrderedMap

variable {κ : Type} [Ord κ] [TransOrd κ] [LawfulEqOrd κ] [DecidableEq κ] {tally : ExtTreeMap κ Nat}

def add (tally : ExtTreeMap κ Nat) (key : κ) : ExtTreeMap κ Nat :=
  tally.insert key (tally.getD key 0 + 1)

def remove (tally : ExtTreeMap κ Nat) (key : κ) : ExtTreeMap κ Nat := match tally[key]? with
  | none => tally
  | some count => if count - 1 = 0 then tally.erase key else tally.insert key (count - 1)

def multiplicity (members : Multiset κ) (key : κ) : Option Nat :=
  if members.count key = 0 then none else some (members.count key)

def Counts (tally : ExtTreeMap κ Nat) (members : Multiset κ) : Prop :=
  ∀ key, tally[key]? = multiplicity members key

omit [Ord κ] [TransOrd κ] [LawfulEqOrd κ] in
theorem multiplicity_getD (members : Multiset κ) (key : κ) :
    (multiplicity members key).getD 0 = members.count key := by
  unfold multiplicity
  split
  next absent => rw [absent]; rfl
  · rfl

omit [LawfulEqOrd κ] in
theorem counts_empty : Counts (∅ : ExtTreeMap κ Nat) 0 := by
  intro key
  simp [multiplicity]

variable {members : Multiset κ}

theorem Counts.unique {first second : ExtTreeMap κ Nat} (counted : Counts first members)
    (alsoCounted : Counts second members) : first = second := by
  apply ExtTreeMap.ext_getElem?
  intro key
  rw [counted, alsoCounted]

theorem Counts.add (counted : Counts tally members) (key : κ) :
    Counts (add tally key) (key ::ₘ members) := by
  intro other
  rw [Tally.add, getElem?_insert, ExtTreeMap.getD_eq_getD_getElem?, counted, multiplicity_getD]
  split
  next same =>
    subst same
    simp [multiplicity]
  next apart => rw [counted, multiplicity, multiplicity, Multiset.count_cons_of_ne (Ne.symm apart)]

theorem Counts.remove {key : κ} (counted : Counts tally (key ::ₘ members)) :
    Counts (remove tally key) members := by
  have has : tally[key]? = some (members.count key + 1) := by
    rw [counted, multiplicity, Multiset.count_cons_self, if_neg (Nat.succ_ne_zero _)]
  have elsewhere : ∀ other, key ≠ other → tally[other]? = multiplicity members other := by
    intro other apart
    rw [counted, multiplicity, multiplicity, Multiset.count_cons_of_ne (Ne.symm apart)]
  intro other
  simp only [Tally.remove, has, Nat.add_sub_cancel]
  split
  next last =>
    rw [getElem?_erase]
    split
    next same => rw [← same, multiplicity, if_pos last]
    next apart => exact elsewhere other apart
  next several =>
    rw [getElem?_insert]
    split
    next same => rw [← same, multiplicity, if_neg several]
    next apart => exact elsewhere other apart

end Tally
