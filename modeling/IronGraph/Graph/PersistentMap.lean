import IronGraph.Graph.PersistentMapCore

/-!
The radix map refines a finite map. A node at depth `d` holds only keys that agree on their first
`d` digits, so a lookup finds every entry by following digits, and a walk in slot order meets the
keys in increasing order.
-/

namespace IronGraph.Graph

open List hiding getElem?_insert
open Std Outcome SortedEntries OrderedMap Function PersistentMap RadixNode Nat

variable {V : Type} {depth : Nat} {key : RadixKey} {value : V} {spec : ExtTreeMap RadixKey V}

section Digits

def leading (depth : Nat) (key : RadixKey) : Nat := key.toNat / 2 ^ (128 - 4 * depth)

theorem radixSlot_val (depth : Nat) (key : RadixKey) :
    (radixSlot depth key).val = leading (depth + 1) key % 16 := by
  unfold radixSlot
  rw [Fin.val_ofNat, BitVec.toNat_and, BitVec.toNat_ushiftRight, shiftRight_eq_div_pow]
  change (_ &&& 15) % 16 = _
  rw [show (15 : Nat) = 2 ^ 4 - 1 from rfl, and_two_pow_sub_one_eq_mod,
    show (2 : Nat) ^ 4 = 16 from rfl, mod_mod]
  rfl

theorem leading_succ (shallow : depth < radixLevels) (key : RadixKey) :
    leading (depth + 1) key = 16 * leading depth key + radixSlot depth key := by
  have levels : radixLevels = 32 := rfl
  have width : 128 - 4 * depth = (128 - 4 * (depth + 1)) + 4 := by omega
  have shorter : leading depth key = leading (depth + 1) key / 16 := by
    unfold leading
    rw [width, pow_add, ← Nat.div_div_eq_div_mul]
    rfl
  rw [radixSlot_val, shorter]
  exact (div_add_mod _ 16).symm

theorem compare_lt_of_leading_lt {first second : RadixKey} (depth : Nat)
    (below : leading depth first < leading depth second) :
    compare first second = .lt := by
  refine compareOfLessAndEq_eq_lt.mpr (BitVec.lt_def.mpr ?_)
  exact Nat.lt_of_not_le fun above => Nat.not_le_of_lt below (Nat.div_le_div_right above)

theorem leadingDigits_lt_iff (shallow : depth ≤ radixLevels) (key : RadixKey) :
    leadingDigits key < depth ↔ leading depth key ≠ 0 := by
  have levels : radixLevels = 32 := rfl
  unfold leadingDigits leading radixBits
  rw [Nat.div_lt_iff_lt_mul (by decide), ne_eq, Nat.div_eq_zero_iff, not_or, Nat.not_lt]
  constructor
  · intro few
    refine ⟨(Nat.two_pow_pos _).ne', ?_⟩
    have nonzero : key ≠ 0#128 := by
      rintro rfl
      rw [show (BitVec.clz (0#128)).toNat = 128 by decide] at few
      omega
    exact Nat.le_trans (Nat.pow_le_pow_right (by decide) (by omega))
      (BitVec.two_pow_sub_clz_le_toNat_of_ne_zero (by decide) nonzero)
  · rintro ⟨_, large⟩
    by_contra many
    have small : key.toNat < 2 ^ (128 - key.clz.toNat) := BitVec.toNat_lt_two_pow_sub_clz
    have ordered : 2 ^ (128 - key.clz.toNat) ≤ 2 ^ (128 - 4 * depth) :=
      Nat.pow_le_pow_right (by decide) (by omega)
    exact absurd small (Nat.not_lt.mpr (Nat.le_trans ordered large))

end Digits

namespace RadixNode

/-- A node at `depth`: its keys are in ascending order and their first digits are those of `number`. -/
def Well : RadixNode V → Nat → Nat → Prop
  | vacant, _, _ => True
  | leaf entries, depth, number => Ascending entries ∧ ∀ entry ∈ entries, leading depth entry.1 = number
  | branch children, depth, number =>
    depth < radixLevels ∧ ∀ slot : Fin 16, (children slot).Well (depth + 1) (16 * number + slot)

variable {node child : RadixNode V} {entries : List (RadixKey × V)}
  {children : Fin 16 → RadixNode V}

variable {number : Nat}

theorem Well.leading_entries (well : node.Well depth number) :
    ∀ entry ∈ node.entries, leading depth entry.1 = number := by
  induction node generalizing depth number with
  | vacant => exact nofun
  | leaf entries => exact well.2
  | branch children ih =>
    intro entry mem
    obtain ⟨slot, _, inside⟩ := mem_flatMap.mp mem
    have digits := ih slot (well.2 slot) entry inside
    rw [leading_succ well.1] at digits
    have bound := slot.isLt
    have other := (radixSlot depth entry.1).isLt
    omega

theorem Well.ascending (well : node.Well depth number) : Ascending node.entries := by
  induction node generalizing depth number with
  | vacant => exact List.Pairwise.nil
  | leaf entries => exact well.1
  | branch children ih =>
    rw [Ascending, entries, pairwise_flatMap]
    refine ⟨fun slot _ => ih slot (well.2 slot), ?_⟩
    refine (pairwise_lt_finRange 16).imp ?_
    intro first second ordered left insideLeft right insideRight
    apply compare_lt_of_leading_lt (depth + 1)
    rw [(well.2 first).leading_entries left insideLeft,
      (well.2 second).leading_entries right insideRight]
    exact Nat.add_lt_add_left ordered _

theorem get_leaf (ascending : Ascending entries) (depth : Nat) (key : RadixKey) (value : V) :
    (leaf entries).get depth key = some value ↔ (key, value) ∈ entries := by
  rcases search_cases ascending key
    with ⟨left, found, right, rfl, searched⟩ | ⟨left, right, rfl, searched, before, after⟩
  · simp only [get, searched]
    rw [getElem?_append_right (Nat.le_refl _), Nat.sub_self, getElem?_cons_zero, Option.map_some,
      Option.some.injEq]
    constructor
    · rintro rfl
      simp
    · intro mem
      exact ascending.mem_unique (by simp) mem
  · simp only [get, searched]
    refine ⟨nofun, fun mem => ?_⟩
    rcases mem_append.mp mem with inside | inside
    · exact absurd (before _ inside) (lt_irrefl key)
    · exact absurd (after _ inside) (lt_irrefl key)

theorem Well.get_eq_some (well : node.Well depth number) (key : RadixKey) (value : V) :
    node.get depth key = some value ↔ (key, value) ∈ node.entries := by
  induction node generalizing depth number with
  | vacant => exact ⟨nofun, nofun⟩
  | leaf entries => exact get_leaf well.1 depth key value
  | branch children ih =>
    rw [get, if_neg (Nat.ne_of_lt well.1), ih _ (well.2 _), entries, mem_flatMap]
    constructor
    · exact fun mem => ⟨_, mem_finRange _, mem⟩
    · rintro ⟨slot, _, mem⟩
      have digits := (well.2 slot).leading_entries _ mem
      have same : radixSlot depth key = slot := by
        apply Fin.ext
        rw [radixSlot_val, digits]
        have bound := slot.isLt
        omega
      exact same ▸ mem

def Stores (after before : RadixNode V) (key : RadixKey) (value : V) : Prop :=
  ∀ other stored, (other, stored) ∈ after.entries ↔
    if other = key then stored = value else (other, stored) ∈ before.entries

theorem insertEntry_spec (ascending : Ascending entries) (depth : Nat) (key : RadixKey) (value : V) :
    (insertEntry entries key value).1 = (leaf entries).get depth key ∧
      Ascending (insertEntry entries key value).2 ∧
      Stores (leaf (insertEntry entries key value).2) (leaf entries) key value := by
  rcases search_cases ascending key
    with ⟨left, found, right, rfl, searched⟩ | ⟨left, right, rfl, searched, before, after⟩
  · simp only [insertEntry, get, searched, modify_middle]
    refine ⟨trivial, ascending.replace value, ?_⟩
    obtain ⟨before, after⟩ := ascending.split
    intro other stored
    simp only [entries, mem_middle before after]
    split <;> rfl
  · simp only [insertEntry, get, searched, insertIdx_middle]
    exact ⟨trivial, ascending.insert before after value, fun other stored =>
      mem_middle before after value⟩

theorem mem_branch {entry : RadixKey × V} :
    entry ∈ (branch children).entries ↔ ∃ slot, entry ∈ (children slot).entries := by
  simp [entries]

variable (well : (branch children).Well depth number)
include well

theorem Well.slot_eq {slot : Fin 16} (mem : (key, value) ∈ (children slot).entries) :
    radixSlot depth key = slot := by
  have digits := (well.2 slot).leading_entries _ mem
  apply Fin.ext
  rw [radixSlot_val, digits]
  have bound := slot.isLt
  omega

theorem Well.setChild {slot : Fin 16} (wellChild : child.Well (depth + 1) (16 * number + slot)) :
    (branch (setChild children slot child)).Well depth number := by
  refine ⟨well.1, ?_⟩
  intro other
  unfold RadixNode.setChild
  by_cases same : other = slot
  · subst same
    rw [update_self]
    exact wellChild
  · rw [update_of_ne same]
    exact well.2 other

theorem Well.mem_setChild {other : RadixKey} {stored : V}
    (wellChild : child.Well (depth + 1) (16 * number + radixSlot depth key)) :
    (other, stored) ∈ (branch (RadixNode.setChild children (radixSlot depth key) child)).entries ↔
      if radixSlot depth other = radixSlot depth key then (other, stored) ∈ child.entries
      else (other, stored) ∈ (branch children).entries := by
  have after := well.setChild wellChild
  rw [mem_branch]
  split
  next same =>
    constructor
    · rintro ⟨slot, mem⟩
      rw [← after.slot_eq mem, same, RadixNode.setChild, Function.update_self] at mem
      exact mem
    · intro mem
      exact ⟨radixSlot depth key, by rw [RadixNode.setChild, Function.update_self]; exact mem⟩
  next apart =>
    rw [mem_branch]
    constructor
    · rintro ⟨slot, mem⟩
      refine ⟨slot, ?_⟩
      have here := after.slot_eq mem
      rw [RadixNode.setChild, Function.update_of_ne (here ▸ apart)] at mem
      exact mem
    · rintro ⟨slot, mem⟩
      have here := well.slot_eq mem
      exact ⟨slot, by rw [RadixNode.setChild, Function.update_of_ne (here ▸ apart)]; exact mem⟩

theorem Well.stores_setChild (wellChild : child.Well (depth + 1) (16 * number + radixSlot depth key))
    (stores : Stores child (children (radixSlot depth key)) key value) :
    Stores (branch (RadixNode.setChild children (radixSlot depth key) child))
      (branch children) key value := by
  intro other stored
  rw [well.mem_setChild wellChild]
  by_cases same : other = key
  · subst same
    rw [if_pos rfl, if_pos rfl, stores, if_pos rfl]
  · rw [if_neg same]
    split
    next sameSlot =>
      rw [stores, if_neg same, mem_branch]
      constructor
      · exact fun mem => ⟨_, mem⟩
      · rintro ⟨slot, mem⟩
        exact sameSlot ▸ well.slot_eq mem ▸ mem
    · rfl

omit well

structure Inserted (node : RadixNode V) (depth number : Nat) (key : RadixKey) (value : V)
    (result : Option V × RadixNode V) : Prop where
  previous : result.1 = node.get depth key
  well : result.2.Well depth number
  stores : Stores result.2 node key value

theorem inserted_vacant (digits : leading depth key = number) (value : V) :
    Inserted vacant depth number key value (none, leaf [(key, value)]) := by
  refine ⟨rfl, ⟨pairwise_singleton _ _, by simpa using digits⟩, ?_⟩
  intro other stored
  simp only [entries, mem_singleton, Prod.mk.injEq, not_mem_nil]
  split <;> simp_all

theorem inserted_leaf (well : (leaf entries).Well depth number)
    (digits : leading depth key = number) (value : V) :
    Inserted (leaf entries) depth number key value
      ((insertEntry entries key value).1, leaf (insertEntry entries key value).2) := by
  obtain ⟨previous, ascending, stores⟩ := insertEntry_spec well.1 depth key value
  refine ⟨previous, ⟨ascending, ?_⟩, stores⟩
  rintro ⟨other, stored⟩ mem
  have source := (stores other stored).mp mem
  split at source
  next same => exact same ▸ digits
  · exact well.2 _ source

theorem split_meets {levels : Nat} (shallow : depth < radixLevels)
    (insertion : ∀ {node : RadixNode V} {number : Nat} {key : RadixKey} (value : V),
      node.Well (depth + 1) number → leading (depth + 1) key = number →
        Meets (insertCow levels node key value)
          (Inserted node (depth + 1) number key value) fun _ => False)
    (ascending : Ascending entries) (digits : ∀ entry ∈ entries, leading depth entry.1 = number) : Meets
      (entries.foldlM (fun children entry => do
          let (_, child) ← insertCow levels (children (radixSlot depth entry.1)) entry.1 entry.2
          return setChild children (radixSlot depth entry.1) child)
        (fun _ => vacant))
      (fun children => (branch children).Well depth number ∧
        ∀ entry, entry ∈ (branch children).entries ↔ entry ∈ entries) fun _ => False := by
  refine Meets.loop (fun done children => (branch children).Well depth number ∧
      ∀ entry, entry ∈ (branch children).entries ↔ entry ∈ done)
    ⟨⟨shallow, fun _ => trivial⟩, by simp [RadixNode.entries]⟩ ?_
  rintro done ⟨key, value⟩ rest children cut ⟨well, same⟩
  have mem : (key, value) ∈ entries := by simp [← cut]
  have below : leading (depth + 1) key = 16 * number + radixSlot depth key := by
    rw [leading_succ shallow, digits _ mem]
  apply Meets.bind (insertion value (well.2 (radixSlot depth key)) below)
  rintro ⟨previous, child⟩ inserted
  refine ⟨well.setChild inserted.well, ?_⟩
  -- The key is new, so the slot it is stored in gains exactly this entry.
  rintro ⟨other, stored⟩
  rw [well.stores_setChild inserted.well inserted.stores, same, mem_append, mem_singleton,
    Prod.mk.injEq]
  split
  next sameKey =>
    subst sameKey
    have fresh : (other, stored) ∉ done := by
      intro inside
      rw [← cut] at ascending
      exact lt_irrefl other (ascending.split.1 _ inside)
    simp [fresh]
  next apart => simp [apart]

theorem insertCow_meets (levels : Nat) (reach : depth + levels = radixLevels) (value : V)
    (well : node.Well depth number) (digits : leading depth key = number) :
    Meets (insertCow levels node key value) (Inserted node depth number key value) fun _ => False := by
  induction levels generalizing node depth number key value with
  | zero =>
    cases node with
    | vacant => exact inserted_vacant digits value
    | branch children => exact absurd well.1 (by omega)
    | leaf entries => exact inserted_leaf well digits value
  | succ levels ih =>
    have shallow : depth < radixLevels := by omega
    have here : radixLevels - (levels + 1) = depth := by omega
    cases node with
    | vacant => exact inserted_vacant digits value
    | branch children =>
      rw [insertCow, here]
      have below : leading (depth + 1) key = 16 * number + radixSlot depth key := by
        rw [leading_succ shallow, digits]
      apply Meets.bind (ih (by omega) value (well.2 (radixSlot depth key)) below)
      rintro ⟨previous, child⟩ inserted
      refine ⟨?_, well.setChild inserted.well, well.stores_setChild inserted.well inserted.stores⟩
      rw [get, if_neg (Nat.ne_of_lt shallow)]
      exact inserted.previous
    | leaf entries =>
      have grown := inserted_leaf well digits value
      rw [insertCow, here]
      dsimp only
      split
      · exact grown
      · apply Meets.bind (split_meets shallow (fun value well below => ih (by omega) value well below)
          grown.well.1 grown.well.2)
        rintro children ⟨wellChildren, same⟩
        refine ⟨grown.previous, wellChildren, ?_⟩
        intro other stored
        rw [same]
        exact grown.stores other stored

structure Lent (node : RadixNode V) (depth number : Nat) (key : RadixKey)
    (lent : V × (V → RadixNode V)) : Prop where
  value : node.get depth key = some lent.1
  well : ∀ value, (lent.2 value).Well depth number
  stores : ∀ value, Stores (lent.2 value) node key value

theorem getMut_spec (well : node.Well depth number) (key : RadixKey) :
    (node.getMut depth key).elim (node.get depth key = none) (Lent node depth number key) := by
  induction node generalizing depth number with
  | vacant => exact rfl
  | leaf entries =>
    rcases search_cases well.1 key
      with ⟨left, found, right, rfl, searched⟩ | ⟨left, right, rfl, searched, _, _⟩
    · simp only [getMut, searched, getElem?_middle, modify_middle, Option.map_some, Option.elim_some]
      obtain ⟨before, after⟩ := well.1.split
      refine ⟨by simp only [get, searched, getElem?_middle, Option.map_some], ?_, ?_⟩
      · intro value
        refine ⟨well.1.replace value, ?_⟩
        rintro ⟨other, stored⟩ mem
        rw [mem_middle before after] at mem
        split at mem
        next same => exact same ▸ well.2 (key, found) (by simp)
        · exact well.2 (other, stored) (mem_append.mpr
            ((mem_append.mp mem).imp_right (mem_cons_of_mem _)))
      · intro value other stored
        simp only [entries, mem_middle before after]
        split <;> rfl
    · simp only [getMut, get, searched, Option.elim_none]
  | branch children ih =>
    have child := ih (radixSlot depth key) (well.2 _)
    simp only [getMut, get, if_pos well.1, if_neg (Nat.ne_of_lt well.1)]
    cases lent : (children (radixSlot depth key)).getMut (depth + 1) key with
    | none =>
      rw [lent] at child
      exact child
    | some ref =>
      rw [lent] at child
      refine ⟨?_, fun value => well.setChild (child.well value),
        fun value => well.stores_setChild (child.well value) (child.stores value)⟩
      rw [get, if_neg (Nat.ne_of_lt well.1)]
      exact child.value

structure Removed (node : RadixNode V) (depth number : Nat) (key : RadixKey)
    (result : RadixNode V × Option V) : Prop where
  removed : result.2 = node.get depth key
  well : result.1.Well depth number
  mem : ∀ other stored, (other, stored) ∈ result.1.entries ↔
    other ≠ key ∧ (other, stored) ∈ node.entries

theorem entries_of_vacant (bare : (finRange 16).all (fun slot => (children slot).isVacant) = true) :
    (branch children).entries = [] := by
  rw [entries, flatMap_eq_nil_iff]
  intro slot mem
  have empty := all_eq_true.mp bare slot mem
  cases child : children slot <;> simp_all [isVacant, entries]

theorem Well.get_eq_none (well : node.Well depth number)
    (absent : node.get depth key = none) (value : V) :
    (key, value) ∉ node.entries := by
  intro mem
  rw [← well.get_eq_some, absent] at mem
  cases mem

theorem removed_unchanged (well : node.Well depth number) (absent : node.get depth key = none) :
    Removed node depth number key (node, none) := by
  refine ⟨absent.symm, well, ?_⟩
  intro other stored
  constructor
  · intro mem
    refine ⟨?_, mem⟩
    rintro rfl
    exact well.get_eq_none absent stored mem
  · exact fun kept => kept.2

theorem remove_spec (well : node.Well depth number) (key : RadixKey) :
    Removed node depth number key (node.remove depth key) := by
  induction node generalizing depth number with
  | vacant => exact removed_unchanged well rfl
  | leaf entries =>
    rcases search_cases well.1 key
      with ⟨left, found, right, rfl, searched⟩ | ⟨left, right, rfl, searched, _, _⟩
    · obtain ⟨before, after⟩ := well.1.split
      have inside : ∀ entry ∈ left ++ right, entry ∈ left ++ (key, found) :: right :=
        fun entry member =>
        mem_append.mpr ((mem_append.mp member).imp_right (mem_cons_of_mem _))
      have left_entries : (if (left ++ right).isEmpty then vacant else leaf (left ++ right)).entries =
          left ++ right := by
        split
        next empty => rw [isEmpty_iff.mp empty, entries]
        · rw [entries]
      simp only [remove, searched, getElem?_middle, eraseIdx_middle, Option.map_some]
      refine ⟨by simp only [get, searched, getElem?_middle, Option.map_some], ?_, ?_⟩
      · split
        · exact trivial
        · exact ⟨well.1.erase, fun entry member => well.2 entry (inside entry member)⟩
      · intro other stored
        rw [left_entries, entries, mem_middle before after]
        by_cases same : other = key
        · subst same
          rw [if_pos rfl]
          refine ⟨fun member => ?_, fun kept => absurd rfl kept.1⟩
          rcases mem_append.mp member with prior | later
          · exact absurd (before _ prior) (lt_irrefl other)
          · exact absurd (after _ later) (lt_irrefl other)
        · simp [same]
    · rw [remove, searched]
      exact removed_unchanged well (by rw [get, searched])
  | branch children ih =>
    have child := ih (radixSlot depth key) (well.2 _)
    rw [remove, if_pos well.1]
    dsimp only
    split
    next kept =>
      rw [Option.isNone_iff_eq_none] at kept
      refine removed_unchanged well ?_
      rw [get, if_neg (Nat.ne_of_lt well.1), ← child.removed, kept]
    · have after := well.setChild child.well
      have mem : ∀ other stored,
          (other, stored) ∈ (branch (setChild children (radixSlot depth key)
            ((children (radixSlot depth key)).remove (depth + 1) key).1)).entries ↔
            other ≠ key ∧ (other, stored) ∈ (branch children).entries := by
        intro other stored
        rw [well.mem_setChild child.well]
        split
        next sameSlot =>
          rw [child.mem, mem_branch]
          refine and_congr_right fun _ => ⟨fun member => ⟨_, member⟩, ?_⟩
          rintro ⟨slot, member⟩
          exact sameSlot ▸ well.slot_eq member ▸ member
        next apart =>
          refine ⟨fun member => ⟨?_, member⟩, fun kept => kept.2⟩
          rintro rfl
          exact apart rfl
      refine ⟨by rw [get, if_neg (Nat.ne_of_lt well.1)]; exact child.removed, ?_, ?_⟩
      · dsimp only
        split
        · exact trivial
        · exact after
      · intro other stored
        rw [← mem]
        dsimp only
        split
        next bare => rw [entries_of_vacant bare, entries]
        · rfl

end RadixNode

theorem leading_eq_zero_of_le {shallower : Nat} (ordered : shallower ≤ depth)
    (digits : leading depth key = 0) :
    leading shallower key = 0 := by
  unfold leading at *
  refine Nat.eq_zero_of_le_zero (Nat.le_trans (Nat.div_le_div_left ?_ (Nat.two_pow_pos _))
    (Nat.le_of_eq digits))
  exact Nat.pow_le_pow_right (by decide) (by omega)

theorem promote_spec (levels depth : Nat) (shallow : depth + levels ≤ radixLevels) {node : RadixNode V}
    (well : node.Well (depth + levels) 0) : (promote levels node).Well depth 0 ∧
      ∀ entry, entry ∈ (promote levels node).entries ↔ entry ∈ node.entries := by
  induction levels generalizing node with
  | zero => exact ⟨well, fun _ => Iff.rfl⟩
  | succ levels ih =>
    rw [promote]
    have bare : (branch fun _ => (vacant : RadixNode V)).Well (depth + levels) 0 :=
      ⟨by omega, fun _ => trivial⟩
    have raised : (branch (setChild (fun _ => .vacant) 0 node)).Well (depth + levels) 0 :=
      bare.setChild well
    obtain ⟨wellTop, same⟩ := ih (by omega) raised
    refine ⟨wellTop, fun entry => ?_⟩
    rw [same, mem_branch]
    constructor
    · rintro ⟨slot, mem⟩
      by_cases first : slot = 0
      · rw [first, setChild, update_self] at mem
        exact mem
      · rw [setChild, update_of_ne first] at mem
        cases mem
    · exact fun mem => ⟨0, by rw [setChild, update_self]; exact mem⟩

structure PersistentMap.Represents (map : PersistentMap V) (spec : ExtTreeMap RadixKey V) : Prop where
  shallow : map.rootDepth < radixLevels
  well : map.root.Well map.rootDepth 0
  mem : ∀ key value, (key, value) ∈ map.root.entries ↔ spec[key]? = some value
  len : map.len = spec.size

namespace PersistentMap.Represents

variable {map : PersistentMap V}

theorem empty : (PersistentMap.empty : PersistentMap V).Represents ∅ :=
  ⟨show 0 < radixLevels by decide, trivial, fun key value => by
    simp [PersistentMap.empty, RadixNode.entries], rfl⟩

theorem get_root (represents : map.Represents spec) (key : RadixKey) :
    map.root.get map.rootDepth key = spec[key]? := by
  apply Option.ext
  intro value
  rw [represents.well.get_eq_some, represents.mem]

theorem absent (represents : map.Represents spec) (deep : leadingDigits key < map.rootDepth) :
    spec[key]? = none := by
  rw [leadingDigits_lt_iff (Nat.le_of_lt represents.shallow)] at deep
  cases found : spec[key]? with
  | none => rfl
  | some value =>
    exact absurd (represents.well.leading_entries _ ((represents.mem key value).mpr found)) deep

theorem get (represents : map.Represents spec) (key : RadixKey) : map.get key = spec[key]? := by
  unfold PersistentMap.get
  split
  next deep => exact (represents.absent deep).symm
  · exact represents.get_root key

theorem entries (represents : map.Represents spec) : map.root.entries = spec.toList := by
  refine represents.well.ascending.eq_of_mem_iff (ascending_toList spec) ?_
  rintro ⟨key, value⟩
  rw [represents.mem, mem_toList]

end PersistentMap.Represents

theorem PersistentMapIter.collect_eq (iter : PersistentMapIter V) : iter.collect = iter.pending := by
  fun_induction PersistentMapIter.collect iter with
  | case1 iter finished =>
    have walked := iter.next_eq
    split at walked
    next done => exact done.symm
    · obtain ⟨_, yielded, _⟩ := walked
      cases finished.symm.trans yielded
  | case2 iter entry later yielded shorter ih => rw [ih, iter.next_pending yielded]

theorem PersistentMap.collect_iter (map : PersistentMap V) : map.iter.collect = map.root.entries := by
  rw [PersistentMapIter.collect_eq]
  unfold iter
  cases map.root <;> simp [PersistentMapIter.pending, isVacant, entries]

namespace PersistentMap.Represents

variable {map : PersistentMap V} {spec : ExtTreeMap RadixKey V}

section

variable (represents : map.Represents spec)

include represents

theorem collect : map.iter.collect = spec.toList:= map.collect_iter.trans represents.entries

theorem makeRoom {keyDepth : Nat} (shallow : keyDepth < radixLevels) :
    (map.makeRoom keyDepth).2 < radixLevels ∧ (map.makeRoom keyDepth).2 ≤ keyDepth ∧
      (map.makeRoom keyDepth).1.Well (map.makeRoom keyDepth).2 0 ∧
      ∀ entry, entry ∈ (map.makeRoom keyDepth).1.entries ↔ entry ∈ map.root.entries := by
  have well := represents.well
  have bound := represents.shallow
  unfold PersistentMap.makeRoom
  cases root : map.root with
  | vacant => exact ⟨shallow, Nat.le_refl _, trivial, fun _ => Iff.rfl⟩
  | leaf entries =>
    rw [root] at well
    refine ⟨by simp only; omega, Nat.min_le_right .., ⟨well.1, ?_⟩, fun _ => Iff.rfl⟩
    exact fun entry mem => leading_eq_zero_of_le (Nat.min_le_left ..) (well.2 entry mem)
  | branch children =>
    rw [root] at well
    have depth : min map.rootDepth keyDepth + (map.rootDepth - keyDepth) = map.rootDepth := by omega
    obtain ⟨promoted, same⟩ := promote_spec (map.rootDepth - keyDepth) (min map.rootDepth keyDepth)
      (by omega) (depth.symm ▸ well)
    exact ⟨by simp only; omega, Nat.min_le_right .., promoted, same⟩

theorem insert_meets (key : RadixKey) (value : V) : Meets (map.insert key value)
      (fun result => result.1 = spec[key]? ∧ result.2.Represents (spec.insert key value))
        fun _ => False := by
  have limit : min (leadingDigits key) (radixLevels - 1) < radixLevels := by
    have levels : radixLevels = 32 := rfl
    omega
  have ready := represents.makeRoom limit
  unfold insert
  generalize map.makeRoom (min (leadingDigits key) (radixLevels - 1)) = room at ready ⊢
  obtain ⟨root, rootDepth⟩ := room
  obtain ⟨shallow, above, well, same⟩ := ready
  have digits : leading rootDepth key = 0 := by
    by_contra nonzero
    have deep := (leadingDigits_lt_iff (Nat.le_of_lt shallow) key).mpr nonzero
    simp only at above
    omega
  apply Meets.bind (insertCow_meets (radixLevels - rootDepth)
    (Nat.add_sub_cancel' (Nat.le_of_lt shallow)) value well digits)
  rintro ⟨previous, after⟩ inserted
  have before : previous = spec[key]? := by
    refine Eq.trans inserted.previous (Option.ext fun found => ?_)
    rw [well.get_eq_some, same, represents.mem]
  refine ⟨before, shallow, inserted.well, ?_, ?_⟩
  · intro other stored
    rw [inserted.stores, same, represents.mem, getElem?_insert]
    by_cases here : other = key
    · subst here
      simp [eq_comm]
    · simp [here, Ne.symm here]
  · rw [ExtTreeMap.size_insert, ← represents.len, ExtTreeMap.contains_eq_isSome_getElem?, ← before]
    cases previous <;> rfl

theorem write {put : V → PersistentMap V} (lent : map.getMut key = some (value, put)) :
    spec[key]? = some value ∧ ∀ new, (put new).Represents (spec.insert key new) := by
  unfold getMut at lent
  split at lent
  · cases lent
  · obtain ⟨⟨found, putRoot⟩, here, same⟩ := Option.map_eq_some_iff.mp lent
    have ref := getMut_spec represents.well key
    rw [here] at ref
    rw [Prod.mk.injEq] at same
    obtain ⟨rfl, rfl⟩ := same
    have has : spec[key]? = some found := (represents.get_root key).symm.trans ref.value
    refine ⟨has, fun new => ⟨represents.shallow, ref.well new, ?_, ?_⟩⟩
    · intro other stored
      rw [ref.stores, represents.mem, getElem?_insert]
      by_cases here : other = key
      · subst here
        simp [eq_comm]
      · simp [here, Ne.symm here]
    · rw [ExtTreeMap.size_insert, ← represents.len,
        if_pos (by rw [ExtTreeMap.contains_eq_isSome_getElem?, has]; rfl)]

theorem getMut_eq_none (refused : map.getMut key = none) : spec[key]? = none := by
  unfold getMut at refused
  split at refused
  next deep => exact represents.absent deep
  · have ref := getMut_spec represents.well key
    rw [Option.map_eq_none_iff.mp refused] at ref
    exact (represents.get_root key).symm.trans ref

theorem remove (key : RadixKey) :
    (map.remove key).1 = spec[key]? ∧ (map.remove key).2.Represents (spec.erase key) := by
  unfold PersistentMap.remove
  split
  next deep =>
    have absent := represents.absent deep
    exact ⟨absent.symm, by rw [erase_absent absent]; exact represents⟩
  · have result := remove_spec represents.well key
    generalize map.root.remove map.rootDepth key = outcome at result ⊢
    obtain ⟨root, removed⟩ := outcome
    have before : removed = spec[key]? := result.removed.trans (represents.get_root key)
    dsimp only
    split
    next has =>
      refine ⟨before, represents.shallow, result.well, ?_, ?_⟩
      · intro other stored
        rw [result.mem, represents.mem, getElem?_erase]
        by_cases here : key = other
        · simp [here]
        · simp [here, Ne.symm here]
      · rw [before] at has
        rw [ExtTreeMap.size_erase, ← represents.len, if_pos]
        rw [ExtTreeMap.contains_eq_isSome_getElem?]
        exact has
    next absent =>
      rw [before, Option.not_isSome_iff_eq_none] at absent
      exact ⟨before, by rw [erase_absent absent]; exact represents⟩

theorem deserialize_meets :
    Meets (deserialize map.serialize) (fun restored => restored.Represents spec) fun _ => False := by
  have ascending := ascending_toList spec
  unfold deserialize serialize
  rw [represents.collect]
  refine Meets.imp (Meets.foldlM (fun rest restored =>
    ∃ (done : List (RadixKey × V)) (part : ExtTreeMap RadixKey V),
      done ++ rest = spec.toList ∧ restored.Represents part ∧
        ∀ key value, part[key]? = some value ↔ (key, value) ∈ done)
    spec.toList ⟨[], ∅, rfl, empty, by simp⟩ ?_) ?_
  · rintro ⟨key, value⟩ rest restored ⟨done, part, cut, current, same⟩
    have fresh : part[key]? = none := by
      cases found : part[key]? with
      | none => rfl
      | some prior =>
        rw [← cut] at ascending
        exact absurd (ascending.split.1 _ ((same key prior).mp found)) (lt_irrefl key)
    apply Meets.bind (current.insert_meets key value)
    rintro ⟨previous, after⟩ ⟨found, represented⟩
    apply Meets.require (by rw [show previous = none from found.trans fresh]; rfl)
    refine ⟨done ++ [(key, value)], part.insert key value, by rw [append_assoc]; exact cut,
      represented, ?_⟩
    intro other stored
    rw [getElem?_insert, mem_append, mem_singleton, Prod.mk.injEq, ← same]
    by_cases here : key = other
    · subst here
      simp [fresh, eq_comm]
    · simp [here, Ne.symm here]
  · rintro restored ⟨done, part, cut, current, same⟩
    rw [append_nil] at cut
    have equal : part = spec := by
      apply ExtTreeMap.ext_getElem?
      intro key
      apply Option.ext
      intro value
      rw [same, cut, mem_toList]
    exact equal ▸ current

end

end PersistentMap.Represents

def FiniteMap.perform (map : ExtTreeMap RadixKey V) : MapOperation V →
    ExtTreeMap RadixKey V × MapReply V
  | .get key => (map, .value map[key]?)
  | .len => (map, .count map.size)
  | .iterate => (map, .entries map.toList)
  | .insert key value => (map.insert key value, .value map[key]?)
  | .write key value => (if key ∈ map then map.insert key value else map, .value map[key]?)
  | .remove key => (map.erase key, .value map[key]?)
  | .reload => (map, .done)

def FiniteMap.component (V : Type) : Handles.Component String Unit (MapOperation V) (MapReply V) where
  Value := ExtTreeMap RadixKey V
  make := fun _ => .ok ∅
  perform := fun map operation => .ok (FiniteMap.perform map operation)

theorem PersistentMap.Represents.perform_meets {map : PersistentMap V}
    (represents : map.Represents spec)
    (op : MapOperation V) :
    Meets (map.perform op) (fun result => (FiniteMap.perform spec op).2 = result.2 ∧
        result.1.Represents (FiniteMap.perform spec op).1) fun _ => False := by
  cases op with
  | get key => exact ⟨congrArg MapReply.value (represents.get key).symm, represents⟩
  | len => exact ⟨congrArg MapReply.count represents.len.symm, represents⟩
  | iterate => exact ⟨congrArg MapReply.entries represents.collect.symm, represents⟩
  | insert key value =>
    apply Meets.bind (represents.insert_meets key value)
    rintro ⟨previous, after⟩ ⟨found, represented⟩
    exact ⟨congrArg MapReply.value found.symm, represented⟩
  | write key value =>
    simp only [perform, FiniteMap.perform]
    cases lent : map.getMut key with
    | none =>
      have absent := represents.getMut_eq_none lent
      have missing : key ∉ spec := by
        rw [← ExtTreeMap.contains_iff_mem, ExtTreeMap.contains_eq_isSome_getElem?, absent]
        exact Bool.false_ne_true
      exact ⟨congrArg MapReply.value absent, by rw [if_neg missing]; exact represents⟩
    | some ref =>
      obtain ⟨found, written⟩ := represents.write lent
      have has : key ∈ spec := by
        rw [← ExtTreeMap.contains_iff_mem, ExtTreeMap.contains_eq_isSome_getElem?, found]
        rfl
      exact ⟨congrArg MapReply.value found, by rw [if_pos has]; exact written value⟩
  | remove key =>
    obtain ⟨removed, represented⟩ := represents.remove key
    exact ⟨congrArg MapReply.value removed.symm, represented⟩
  | reload =>
    apply Meets.bind represents.deserialize_meets
    intro restored represented
    exact ⟨rfl, represented⟩

theorem PersistentMap.component_refines (V : Type) :
    Handles.Refines (PersistentMap.component V)
      (FiniteMap.component V) PersistentMap.Represents fun _ => False where
  make := fun _ => ⟨(∅ : ExtTreeMap RadixKey V compare), rfl, PersistentMap.Represents.empty⟩
  perform := fun op represents =>
    Meets.imp (PersistentMap.Represents.perform_meets represents op)
      (fun _ agreed => ⟨_, congrArg Except.ok (Prod.ext rfl agreed.1), agreed.2⟩)

/-- Whatever is done through any number of handles, every reply is the one finite maps give, and
each handle still reads, counts and enumerates its own finite map. -/
theorem persistentMap_refines_map (actions : List (Handles.Step Unit (MapOperation V))) :
    ∃ pool maps replies,
      (component V).run actions [] = .ok (pool, replies) ∧
      (FiniteMap.component V).run actions [] = .ok (maps, replies) ∧
      List.Forall₂ (fun (map : PersistentMap V) (spec : ExtTreeMap RadixKey V) =>
        (∀ key, map.get key = spec[key]?) ∧ map.len = spec.size ∧ map.iter.collect = spec.toList ∧
          (map.iter.collect.map Prod.fst).Pairwise (· < ·)) pool maps := by
  have simulated := (component_refines V).run actions List.Forall₂.nil
  cases ran : (component V).run actions [] with
  | error message => exact (simulated.error_fail ran).elim
  | ok result =>
    obtain ⟨maps, specified, represented⟩ := simulated.ok_post ran
    refine ⟨result.1, maps, result.2, rfl, specified, represented.imp ?_⟩
    intro map spec represents
    refine ⟨represents.get, represents.len, represents.collect, ?_⟩
    rw [represents.collect, pairwise_map]
    refine (ascending_toList spec).imp ?_
    intro left right below
    exact compareOfLessAndEq_eq_lt.mp below

end IronGraph.Graph
