import IronGraph.Library.Census
import IronGraph.Broker.Groups

/-!
What the balancing of partitions by lag gives to each member of a group.
-/

namespace IronGraph.Broker

open List hiding count getElem?_insert
open Std OrderedMap

variable {subscriptions : ExtTreeMap String (List String)} {balance : Balance}
  {entry : (String × Int) × Nat} {member : String} {entries : List ((String × Int) × Nat)}

def Subscribes (subscriptions : ExtTreeMap String (List String)) (member topic : String) : Prop :=
  ∃ topics, subscriptions[member]? = some topics ∧ topic ∈ topics

def holdings (assignment : PartitionAssignment) : List (String × Int) :=
  assignment.toList.flatMap fun (topic, partitions) => partitions.map (topic, ·)

theorem holdings_erase (assignment : PartitionAssignment) (topic : String) : (holdings assignment).Perm
    ((assignment.getD topic []).map (topic, ·) ++ holdings (assignment.erase topic)) := by
  rw [ExtTreeMap.getD_eq_getD_getElem?]
  cases found : assignment[topic]? with
  | none => simp [erase_absent found]
  | some partitions => exact (toList_erase_perm found).flatMap_right _

theorem holdings_insert (assignment : PartitionAssignment) (topic : String) (partition : Int) :
    (holdings (assignment.insert topic (assignment.getD topic [] ++ [partition]))).Perm
      ((topic, partition) :: holdings assignment) := by
  have rest : (assignment.insert topic (assignment.getD topic [] ++ [partition])).erase topic =
      assignment.erase topic := by
    apply ExtTreeMap.ext_getElem?
    intro other
    rw [getElem?_erase, getElem?_erase, getElem?_insert]
    split <;> rfl
  refine (holdings_erase _ topic).trans ?_
  rw [rest, ExtTreeMap.getD_insert_self, map_append, append_assoc]
  exact perm_middle.trans ((holdings_erase assignment topic).symm.cons _)

section Least

variable (load : ExtTreeMap String Nat)

def Before (first second : String) : Prop := load.getD first 0 < load.getD second 0 ∨
  load.getD first 0 = load.getD second 0 ∧ (compare first second).isLE

variable {load}

theorem Before.refl (first : String) : Before load first first := .inr ⟨rfl, ReflCmp.isLE_rfl⟩

theorem Before.trans {first second third : String} (one : Before load first second)
    (two : Before load second third) : Before load first third := by
  rcases one with less | ⟨equal, named⟩
  · rcases two with also | ⟨same, _⟩ <;> exact .inl (by omega)
  · rcases two with also | ⟨same, later⟩
    · exact .inl (by omega)
    · exact .inr ⟨equal.trans same, TransCmp.isLE_trans named later⟩

theorem leastLoaded_spec (subscriptions : ExtTreeMap String (List String))
    (load : ExtTreeMap String Nat) (topic : String) :
    (leastLoaded subscriptions load topic = none ∧ ∀ member, ¬ Subscribes subscriptions member topic) ∨
      ∃ member, leastLoaded subscriptions load topic = some member ∧
      Subscribes subscriptions member topic ∧
        ∀ other, Subscribes subscriptions other topic → Before load member other := by
  obtain ⟨step, folded, first_step, next_step⟩ : ∃ step : Option String → String → Option String,
      leastLoaded subscriptions load topic = foldl step none
        ((subscriptions.toList.filter (·.2.contains topic)).map (·.1)) ∧
      (∀ member, step none member = some member) ∧ ∀ least member, step (some least) member =
        if load.getD member 0 < load.getD least 0 ∨
          (load.getD member 0 = load.getD least 0 ∧ compare member least = .lt) then some member
            else some least :=
    ⟨_, rfl, fun _ => rfl, fun _ _ => rfl⟩
  -- The fold keeps the first of what it started from and what it has passed.
  have fold : ∀ (rest : List String) (least : String), ∃ member,
      rest.foldl step (some least) = some member ∧ member ∈ least :: rest ∧
        ∀ other ∈ least :: rest, Before load member other := by
    intro rest
    induction rest with
    | nil => exact fun least => ⟨least, rfl, by simp, by simpa using .refl least⟩
    | cons candidate rest ih =>
      intro least
      by_cases prior : load.getD candidate 0 < load.getD least 0 ∨
          (load.getD candidate 0 = load.getD least 0 ∧ compare candidate least = .lt)
      · obtain ⟨member, found, listed, first⟩ := ih candidate
        refine ⟨member, by rw [foldl_cons, next_step, if_pos prior, found],
          mem_cons_of_mem _ listed, ?_⟩
        have better : Before load candidate least :=
          prior.imp_right fun tie => ⟨tie.1, by rw [tie.2]; rfl⟩
        exact forall_mem_cons.mpr ⟨(first candidate (by simp)).trans better, first⟩
      · obtain ⟨member, found, listed, first⟩ := ih least
        refine ⟨member, by rw [foldl_cons, next_step, if_neg prior, found], ?_, ?_⟩
        · rcases mem_cons.mp listed with rfl | later <;> simp [*]
        · have better : Before load least candidate := by
            rcases Nat.lt_trichotomy (load.getD least 0) (load.getD candidate 0)
              with less | equal | more
            · exact .inl less
            · refine .inr ⟨equal, ?_⟩
              rw [OrientedOrd.eq_swap]
              cases compared : compare candidate least with
              | lt => exact absurd (.inr ⟨equal.symm, compared⟩) prior
              | eq => rfl
              | gt => rfl
            · exact absurd (.inl more) prior
          have least_first := first least (by simp)
          refine forall_mem_cons.mpr ⟨least_first, forall_mem_cons.mpr ⟨least_first.trans better, ?_⟩⟩
          exact fun other member => first other (mem_cons_of_mem _ member)
  have listed : ∀ member, member ∈ (subscriptions.toList.filter (·.2.contains topic)).map (·.1) ↔
      Subscribes subscriptions member topic := by
    intro member
    simp [Subscribes]
  rw [folded]
  cases subscribers : (subscriptions.toList.filter (·.2.contains topic)).map (·.1) with
  | nil =>
    rw [subscribers] at listed
    exact .inl ⟨rfl, fun member subscribed => absurd ((listed member).mpr subscribed) not_mem_nil⟩
  | cons first rest =>
    rw [subscribers] at listed
    obtain ⟨member, found, inside, least⟩ := fold rest first
    rw [foldl_cons, first_step]
    exact .inr ⟨member, found, (listed member).mp inside, fun other subscribed =>
      least other ((listed other).mpr subscribed)⟩

end Least

def Balance.held (balance : Balance) (member : String) : List (String × Int) :=
  holdings (balance.assignment.getD member ∅)

structure Gives (subscriptions : ExtTreeMap String (List String)) (balance : Balance)
    (entry : (String × Int) × Nat) (owner : String) (next : Balance) : Prop where
  subscribes : Subscribes subscriptions owner entry.1.1
  least : ∀ other, Subscribes subscriptions other entry.1.1 → Before balance.load owner other
  held : ∀ member, (next.held member).Perm ((if member = owner then [entry.1]
    else []) ++ balance.held member)
  members : ∀ member, member ∈ next.assignment ↔ member = owner ∨ member ∈ balance.assignment
  load : next.load = balance.load.insert owner
    (balance.load[owner]?.elim entry.2 fun total => saturatingAdd total entry.2)

theorem placePartition_cases (subscriptions : ExtTreeMap String (List String)) (balance : Balance)
    (entry : (String × Int) × Nat) :
    (placePartition subscriptions balance entry = balance ∧
      ∀ member, ¬ Subscribes subscriptions member entry.1.1) ∨
      ∃ owner, Gives subscriptions balance entry owner
        (placePartition subscriptions balance entry) := by
  obtain ⟨⟨topic, partition⟩, weight⟩ := entry
  unfold placePartition
  rcases leastLoaded_spec subscriptions balance.load topic
    with ⟨nobody, none⟩ | ⟨owner, chosen, subscribes, least⟩
  · exact .inl ⟨by simp only [nobody], none⟩
  refine .inr ⟨owner, ?_⟩
  simp only [chosen]
  refine ⟨subscribes, least, fun member => ?_, fun member => ?_, rfl⟩
  · unfold Balance.held
    rw [ExtTreeMap.getD_insert]
    by_cases same : member = owner
    · subst same
      simpa using holdings_insert _ topic partition
    · simp [same, Ne.symm same]
  · rw [ExtTreeMap.mem_insert, LawfulEqCmp.compare_eq_iff_eq, eq_comm]

theorem Subscribes.mem {topic : String} (subscribes : Subscribes subscriptions member topic) :
    member ∈ subscriptions :=
  mem_iff_exists.mpr (subscribes.imp fun _ found => found.1)

section Dealt

/-- What holds once some entries are placed: each that somebody subscribes to has one owner, and
nothing else is held. -/
structure Dealt (subscriptions : ExtTreeMap String (List String))
    (entries : List ((String × Int) × Nat)) (balance : Balance) : Prop where
  members : ∀ member, member ∈ balance.assignment ↔ member ∈ subscriptions
  only : ∀ key member, key ∈ balance.held member → key ∈ entries.map (·.1) ∧
    Subscribes subscriptions member key.1
  owned : ∀ key ∈ entries.map (·.1), ∀ subscriber, Subscribes subscriptions subscriber key.1 → ∃ owner,
    Subscribes subscriptions owner key.1 ∧ ∀ member, (balance.held member).count key =
      if member = owner then 1 else 0

theorem Dealt.place (dealt : Dealt subscriptions entries balance)
    (fresh : entry.1 ∉ entries.map (·.1)) : Dealt subscriptions (entries ++ [entry])
      (placePartition subscriptions balance entry) := by
  rcases placePartition_cases subscriptions balance entry with ⟨same, nobody⟩ | ⟨owner, gives⟩
  · rw [same]
    refine ⟨dealt.members, fun key member inside => ?_, ?_⟩
    · obtain ⟨listed, subscribes⟩ := dealt.only key member inside
      exact ⟨by simp_all, subscribes⟩
    · simp only [map_append, forall_mem_append, map_singleton, forall_mem_singleton]
      exact ⟨dealt.owned, fun subscriber subscribes => absurd subscribes (nobody subscriber)⟩
  refine ⟨fun member => ?_, fun key member inside => ?_, ?_⟩
  · rw [gives.members, dealt.members]
    exact ⟨fun either => either.elim (fun same => same ▸ gives.subscribes.mem) id, .inr⟩
  · rw [(gives.held member).mem_iff, mem_append] at inside
    rcases inside with new | old
    · by_cases same : member = owner
      · rw [if_pos same, mem_singleton] at new
        exact ⟨by simp [new], by rw [new, same]; exact gives.subscribes⟩
      · simp [same] at new
    · obtain ⟨listed, subscribes⟩ := dealt.only key member old
      exact ⟨by simp_all, subscribes⟩
  · simp only [map_append, forall_mem_append, map_singleton, forall_mem_singleton]
    refine ⟨fun key listed subscriber subscribes => ?_, fun _ _ =>
      ⟨owner, gives.subscribes, fun member => ?_⟩⟩
    · obtain ⟨before, also, counts⟩ := dealt.owned key listed subscriber subscribes
      refine ⟨before, also, fun member => ?_⟩
      have apart : entry.1 ≠ key := fun same => fresh (same ▸ listed)
      rw [(gives.held member).count_eq, count_append, counts]
      split <;> simp [apart]
    · have absent : entry.1 ∉ balance.held member := fun inside => fresh (dealt.only _ _ inside).1
      rw [(gives.held member).count_eq, count_append, count_eq_zero.mpr absent]
      split <;> simp

end Dealt

def lagOrder (lag : ExtTreeMap (String × Int) Nat) : List ((String × Int) × Nat) :=
  lag.toList.insertionSort fun left right => heavierFirst left right = true

theorem lagOrder_keys (lag : ExtTreeMap (String × Int) Nat) :
    ((lagOrder lag).map (·.1)).Perm lag.keys := by
  rw [← ExtTreeMap.map_fst_toList_eq_keys]
  exact (perm_insertionSort _ lag.toList).map _

variable (subscriptions) in
def balanced (entries : List ((String × Int) × Nat)) : Balance :=
  entries.foldl (placePartition subscriptions)
  { assignment := subscriptions.map fun _ _ => ∅, load := subscriptions.map fun _ _ => 0 }

theorem held_start (member : String) : (balanced subscriptions []).held member = [] := by
  unfold Balance.held balanced
  rw [foldl_nil, ExtTreeMap.getD_eq_getD_getElem?, ExtTreeMap.getElem?_map]
  cases subscriptions[member]? <;> rfl

theorem balanced_append (entries : List ((String × Int) × Nat)) (entry : (String × Int) × Nat) :
    balanced subscriptions (entries ++ [entry]) =
      placePartition subscriptions (balanced subscriptions entries) entry :=
  foldl_append

theorem dealt_balanced (distinct : (entries.map (·.1)).Nodup) :
    Dealt subscriptions entries (balanced subscriptions entries) := by
  induction entries using reverseRecOn with
  | nil =>
    refine ⟨fun member => ExtTreeMap.mem_map, fun key member inside => ?_, nofun⟩
    rw [held_start] at inside
    cases inside
  | append_singleton entries entry ih =>
    rw [map_append, nodup_append] at distinct
    rw [balanced_append]
    exact (ih distinct.1).place fun inside => distinct.2.2 _ inside entry.1 (by simp) rfl

theorem dealt_lagOrder {lag : ExtTreeMap (String × Int) Nat} :
    Dealt subscriptions (lagOrder lag) (balanced subscriptions (lagOrder lag)) :=
  dealt_balanced ((lagOrder_keys lag).nodup_iff.mpr ExtTreeMap.nodup_keys)

def givenTo (subscriptions : ExtTreeMap String (List String)) (lag : ExtTreeMap (String × Int) Nat)
    (member : String) : List (String × Int) :=
  holdings ((balancePartitionsByLag subscriptions lag).getD member ∅)

/-- Each partition somebody subscribes to is given to exactly one member, who subscribes to it; no
other partition is given to anybody, and every member has an entry. -/
theorem balancePartitionsByLag_assigns (subscriptions : ExtTreeMap String (List String))
    (lag : ExtTreeMap (String × Int) Nat) :
    (∀ member, member ∈ balancePartitionsByLag subscriptions lag ↔ member ∈ subscriptions) ∧
      (∀ key member, key ∈ givenTo subscriptions lag member → key ∈ lag ∧
        Subscribes subscriptions member key.1) ∧
      ∀ key ∈ lag, ∀ subscriber, Subscribes subscriptions subscriber key.1 →
        ∃ owner, Subscribes subscriptions owner key.1 ∧ ∀ member,
          (givenTo subscriptions lag member).count key = if member = owner then 1 else 0 := by
  obtain ⟨members, only, owned⟩ := @dealt_lagOrder subscriptions lag
  simp only [(lagOrder_keys lag).mem_iff, ExtTreeMap.mem_keys] at only owned
  exact ⟨members, only, owned⟩

section Even

/-- The load of a member that holds so many partitions of equal lag. -/
def filled (each count : Nat) : Nat := min (count * each) (u64Limit - 1)

def turns (each : Nat) : Nat := (u64Limit - 1 + each - 1) / each

variable {each count : Nat}

theorem filled_lt {many : Nat} (few : count < turns each) (more : count < many) :
    filled each count < filled each many := by
  have positive : 0 < each := by
    rcases Nat.eq_zero_or_pos each with rfl | positive
    · simp [turns] at few
    · exact positive
  have whole := (Nat.le_div_iff_mul_le positive).mp (Nat.succ_le_of_lt few)
  have grows := Nat.mul_lt_mul_of_pos_right more positive
  rw [Nat.succ_mul] at whole
  unfold filled
  omega

theorem filled_eq (many : turns each ≤ count) : filled each count = filled each (turns each) := by
  unfold filled
  rcases Nat.eq_zero_or_pos each with rfl | positive
  · simp
  have full : u64Limit - 1 < turns each * each + 1 := by
    have above := Nat.lt_div_mul_add (a := u64Limit - 1 + each - 1) positive
    unfold turns
    omega
  have more := Nat.mul_le_mul_right each many
  omega

/-- The members take turns until no load grows any more; then the first by name takes the rest. -/
def Even (each : Nat) (members : Finset String) (share : String → Nat) : Prop :=
  (∀ one ∈ members, share one ≤ turns each ∧ ∀ two ∈ members, share one ≤ share two + 1) ∨
    ∃ first ∈ members, turns each < share first ∧ ∀ other ∈ members, (compare first other).isLE ∧
      (other ≠ first → share other = turns each)

variable {members : Finset String} {share : String → Nat}

theorem Even.step {owner : String} (even : Even each members share) (inside : owner ∈ members)
    (chosen : ∀ other ∈ members, filled each (share owner) < filled each (share other) ∨
      filled each (share owner) = filled each (share other) ∧ (compare owner other).isLE) :
    Even each members fun member => (if member = owner then 1 else 0) + share member := by
  have least : ∀ other ∈ members, share other < turns each → share owner ≤ share other := by
    intro other member few
    by_contra! more
    have grows := filled_lt few more
    have first := chosen other member
    omega
  have tied : ∀ other ∈ members, turns each ≤ share owner → turns each ≤ share other →
      (compare owner other).isLE := by
    intro other member full also
    have first := chosen other member
    rw [filled_eq full, filled_eq also] at first
    exact (first.resolve_left (lt_irrefl _)).2
  simp only [Even]
  rcases even with even | ⟨first, member, more, rest⟩
  · by_cases few : share owner < turns each
    · left
      intro one listed
      have below := (even one listed).1
      refine ⟨?_, fun two also => ?_⟩
      · split
        next same => rw [same]; omega
        · omega
      · have close := (even one listed).2 two also
        have low := least two also
        split
        next same => rw [same]; split <;> omega
        · omega
    · right
      have all : ∀ other ∈ members, share other = turns each := by
        intro other member
        have most := (even other member).1
        have low := least other member
        omega
      refine ⟨owner, inside, by simp [all _ inside], fun other member => ⟨?_, fun apart => ?_⟩⟩
      · exact tied other member (all _ inside).ge (all other member).ge
      · rw [if_neg apart, all other member, zero_add]
  · right
    have full : ∀ other ∈ members, turns each ≤ share other := by
      intro other listed
      by_cases same : other = first
      · exact same ▸ more.le
      · exact ((rest other listed).2 same).ge
    have same : owner = first := by
      have forward := tied first member (full _ inside) (full _ member)
      have backward := (rest owner inside).1
      rw [OrientedOrd.eq_swap] at backward
      cases compared : compare owner first with
      | lt => rw [compared] at backward; cases backward
      | eq => exact LawfulEqCmp.eq_of_compare compared
      | gt => rw [compared] at forward; cases forward
    subst same
    refine ⟨owner, member, by simp; omega, fun other listed => ⟨(rest other listed).1, fun apart => ?_⟩⟩
    rw [if_neg apart, (rest other listed).2 apart, zero_add]

theorem Even.close_iff (even : Even each members share) :
    (∀ one ∈ members, ∀ two ∈ members, share one ≤ share two + 1) ↔
      members.card = 1 ∨ ∑ member ∈ members, share member ≤ members.card * turns each + 1 := by
  rcases even with even | ⟨first, member, more, rest⟩
  · refine ⟨fun _ => .inr ?_, fun _ one inside two also => (even one inside).2 two also⟩
    exact (Finset.sum_le_card_nsmul _ _ _ fun one inside => (even one inside).1).trans (Nat.le_succ _)
  have parts : ∑ member ∈ members, share member = share first + (members.card - 1) * turns each := by
    rw [← Finset.add_sum_erase _ _ member, Finset.sum_const_nat fun other inside =>
      (rest other (Finset.mem_of_mem_erase inside)).2 (Finset.ne_of_mem_erase inside),
        Finset.card_erase_of_mem member]
  obtain ⟨others, counted⟩ := Nat.exists_eq_add_one.mpr (Finset.card_pos.mpr ⟨first, member⟩)
  rw [parts, counted, Nat.add_sub_cancel, Nat.succ_mul]
  constructor
  · intro even
    rcases Nat.eq_zero_or_pos others with rfl | more
    · exact .inl rfl
    · have several : 1 < members.card := by omega
      obtain ⟨other, inside, apart⟩ := Finset.exists_mem_ne several first
      have close := even first member other inside
      rw [(rest other inside).2 apart] at close
      exact .inr (by omega)
  · intro small one inside two also
    have high : share two ≥ turns each := by
      by_cases again : two = first
      · exact again ▸ more.le
      · exact ((rest two also).2 again).ge
    by_cases same : one = first
    · rcases small with alone | few
      · rw [Finset.card_le_one.mp (by omega) one inside two also]
        exact Nat.le_succ _
      · rw [same]
        omega
    · rw [(rest one inside).2 same]
      omega

theorem mem_subscribers : member ∈ subscriptions.keys.toFinset ↔ member ∈ subscriptions := by simp

theorem card_subscribers : subscriptions.keys.toFinset.card = subscriptions.size := by
  rw [toFinset_card_of_nodup ExtTreeMap.nodup_keys, ExtTreeMap.length_keys]

theorem level_balanced (someone : 0 < subscriptions.size) (alike : ∀ entry ∈ entries,
      (∀ member ∈ subscriptions, Subscribes subscriptions member entry.1.1) ∧ entry.2 = each) :
    (∀ member ∈ subscriptions, (balanced subscriptions entries).load[member]? =
        some (filled each ((balanced subscriptions entries).held member).length)) ∧
      Even each subscriptions.keys.toFinset (fun member =>
        ((balanced subscriptions entries).held member).length) ∧
      ∑ member ∈ subscriptions.keys.toFinset,
        ((balanced subscriptions entries).held member).length = entries.length := by
  induction entries using reverseRecOn with
  | nil =>
    simp only [held_start, length_nil, Finset.sum_const_zero, and_true]
    refine ⟨fun member inside => ?_, .inl fun _ _ => ⟨Nat.zero_le _, fun _ _ => Nat.zero_le _⟩⟩
    obtain ⟨topics, found⟩ := mem_iff_exists.mp inside
    simp [balanced, found, filled]
  | append_singleton entries entry ih =>
    obtain ⟨before, here⟩ := forall_mem_append.mp alike
    obtain ⟨everyone, rfl⟩ := here entry (by simp)
    obtain ⟨loads, even, total⟩ := ih before
    rw [balanced_append]
    rcases placePartition_cases subscriptions (balanced subscriptions entries) entry
      with ⟨_, nobody⟩ | ⟨owner, gives⟩
    · obtain ⟨member, first⟩ := exists_mem_of_length_pos
        (show 0 < subscriptions.keys.length by rwa [ExtTreeMap.length_keys])
      exact absurd (everyone member (ExtTreeMap.mem_keys.mp first)) (nobody member)
    have lengths : ∀ member,
        ((placePartition subscriptions (balanced subscriptions entries) entry).held member).length =
        (if member = owner then 1 else 0) + ((balanced subscriptions entries).held member).length := by
      intro member
      rw [(gives.held member).length_eq, length_append]
      split <;> rfl
    have member := gives.subscribes.mem
    simp only [lengths]
    refine ⟨fun other also => ?_, even.step (mem_subscribers.mpr member) fun other also => ?_, ?_⟩
    · rw [gives.load, getElem?_insert]
      by_cases same : owner = other
      · subst same
        simp only [if_pos, loads owner member, Option.elim_some, saturatingAdd, filled,
          Nat.add_mul, Nat.one_mul]
        exact congrArg some (by omega)
      · rw [if_neg same, if_neg (Ne.symm same), Nat.zero_add, loads other also]
    · have listed := mem_subscribers.mp also
      simpa only [Before, ExtTreeMap.getD_eq_getD_getElem?, loads owner member, loads other listed,
        Option.getD_some]
        using gives.least other (everyone other listed)
    · rw [Finset.sum_add_distrib, total, Finset.sum_ite_eq', if_pos (mem_subscribers.mpr member),
        length_append, add_comm]
      rfl

/-- Equal lags are spread evenly exactly as long as the load of some member grows with every
partition but the last. -/
theorem balancePartitionsByLag_even (subscriptions : ExtTreeMap String (List String))
    (lag : ExtTreeMap (String × Int) Nat) (each : Nat) (someone : 0 < subscriptions.size)
    (everyone : ∀ member ∈ subscriptions, ∀ key : String × Int, key ∈ lag →
      Subscribes subscriptions member key.1)
    (equal : ∀ key ∈ lag, lag[key]? = some each) :
    (∀ one ∈ subscriptions, ∀ two ∈ subscriptions,
        (givenTo subscriptions lag one).length ≤ (givenTo subscriptions lag two).length + 1) ↔
      subscriptions.size = 1 ∨ lag.size ≤ subscriptions.size * turns each + 1 := by
  have inLag : ∀ entry ∈ lagOrder lag, entry.1 ∈ lag := fun entry member =>
    ExtTreeMap.mem_keys.mp ((lagOrder_keys lag).mem_iff.mp (mem_map_of_mem member))
  obtain ⟨-, spread, total⟩ := level_balanced someone fun entry member => ⟨fun subscriber inside =>
    everyone subscriber inside _ (inLag entry member),
      Option.some.inj ((mem_toList.mp ((mem_insertionSort _).mp
      member)).symm.trans (equal _ (inLag entry member)))⟩
  have size : (lagOrder lag).length = lag.size := by
    rw [lagOrder, length_insertionSort, ExtTreeMap.length_toList]
  have close := spread.close_iff
  simp only [total, size, card_subscribers, mem_subscribers] at close
  exact close

def pairOfMembers : ExtTreeMap String (List String) :=
  (∅ : ExtTreeMap String (List String)).insert "a" ["t"] |>.insert "b" ["t"]

def lagging (each : Nat) : ExtTreeMap (String × Int) Nat :=
  (∅ : ExtTreeMap (String × Int) Nat).insert ("t", 0) each |>.insert ("t", 1) each

theorem pair_iff {topics : List String} : pairOfMembers[member]? = some topics ↔
    ("b" = member ∨ "a" = member) ∧ ["t"] = topics := by
  simp only [pairOfMembers, getElem?_insert, ExtTreeMap.getElem?_empty]
  split
  next same => simp [same]
  next apart => split <;> simp_all

theorem lagging_iff {weight : Nat} {key : String × Int} :
    (lagging each)[key]? = some weight ↔ (("t", 1) = key ∨ ("t", 0) = key) ∧ each = weight := by
  simp only [lagging, getElem?_insert, ExtTreeMap.getElem?_empty]
  split
  next same => simp [same]
  next apart => split <;> simp_all

theorem pair_lagging (each : Nat) :
    (∀ member ∈ pairOfMembers, ∀ key : String × Int, key ∈ lagging each →
      Subscribes pairOfMembers member key.1) ∧
      ∀ key ∈ lagging each, (lagging each)[key]? = some each := by
  constructor
  · intro member listed key found
    obtain ⟨topics, here⟩ := mem_iff_exists.mp listed
    obtain ⟨weight, there⟩ := mem_iff_exists.mp found
    obtain ⟨-, rfl⟩ := pair_iff.mp here
    obtain ⟨rfl | rfl, -⟩ := lagging_iff.mp there <;> exact ⟨_, here, by simp⟩
  · intro key found
    obtain ⟨weight, there⟩ := mem_iff_exists.mp found
    rw [there, (lagging_iff.mp there).2]

/-- Of two idle partitions of a topic that both members subscribe to, the first member takes both. -/
theorem balancePartitionsByLag_idle : 0 < pairOfMembers.size ∧
    (∀ member ∈ pairOfMembers, ∀ key : String × Int, key ∈ lagging 0 →
      Subscribes pairOfMembers member key.1) ∧
    (∀ key ∈ lagging 0, (lagging 0)[key]? = some 0) ∧
    (givenTo pairOfMembers (lagging 0) "b").length + 1 <
      (givenTo pairOfMembers (lagging 0) "a").length :=
  ⟨by decide +kernel, (pair_lagging 0).1, (pair_lagging 0).2, by decide +kernel⟩

theorem balancePartitionsByLag_busy :
    (givenTo pairOfMembers (lagging 1) "a").length ≤
      (givenTo pairOfMembers (lagging 1) "b").length + 1 :=
  (balancePartitionsByLag_even pairOfMembers (lagging 1) 1 (by decide +kernel) (pair_lagging 1).1
    (pair_lagging 1).2).mpr
    (.inr (by decide +kernel)) "a" (by simp [pairOfMembers]) "b" (by simp [pairOfMembers])

end Even

end IronGraph.Broker
