import IronGraph.Broker.CatalogRemoval

/-!
Consumer groups: members join, leave, expire and are assigned partitions. Every group with members
has a protocol that all of them speak.
-/

namespace IronGraph.Broker

open List hiding getElem?_insert
open Std Outcome OrderedMap BrokerStateMachine

variable {members : ExtTreeMap String GroupMember}

section Protocols

def commonProtocol : List Fields → Result String
  | [] => .error (Error.invalidData "consumer group has no members")
  | first :: rest => orElse (first.keys.filter fun protocol => rest.all (·.contains protocol)).head?
      (Error.invalidData "consumer group has no common assignment protocol")

theorem selectGroupProtocol_eq (members : ExtTreeMap String GroupMember) :
    selectGroupProtocol members = commonProtocol (members.values.map (·.protocols)) := by
  have filtered : ∀ (rest : List GroupMember) (common : List String),
      rest.foldl (fun common member => common.filter fun protocol =>
        member.protocols.contains protocol) common = common.filter fun protocol =>
          (rest.map (·.protocols)).all (·.contains protocol) := by
    intro rest
    induction rest with
    | nil => simp
    | cons member rest ih =>
      intro common
      rw [foldl_cons, ih, filter_filter]
      simp [Bool.and_comm]
  unfold selectGroupProtocol
  cases members.values with
  | nil => rfl
  | cons first rest => simp only [filtered, map_cons, commonProtocol]

variable {members' : ExtTreeMap String GroupMember}

theorem selectGroupProtocol_congr
    (same : ∀ name : String, members'[name]?.map (·.protocols) = members[name]?.map (·.protocols)) :
    selectGroupProtocol members' = selectGroupProtocol members := by
  have equal : (members'.map fun _ member => member.protocols) = members.map fun _ member =>
      member.protocols := by
    apply ExtTreeMap.ext_getElem?
    intro name
    rw [ExtTreeMap.getElem?_map, ExtTreeMap.getElem?_map]
    exact same name
  have lists : ∀ map : ExtTreeMap String GroupMember,
      map.values.map (·.protocols) = (map.map fun _ member => member.protocols).toList.map (·.2) := by
    intro map
    rw [ExtTreeMap.toList_map, values_eq_map_toList, map_map, map_map]
    rfl
  rw [selectGroupProtocol_eq, selectGroupProtocol_eq, lists, lists, equal]

theorem exists_selectGroupProtocol : (∃ protocol, selectGroupProtocol members = .ok protocol) ↔
      members.isEmpty = false ∧ ∃ protocol, ∀ (name : String) (member : GroupMember),
        members[name]? = some member → protocol ∈ member.protocols := by
  have shared : ∀ protocol, (∀ (name : String) (member : GroupMember),
      members[name]? = some member → protocol ∈ member.protocols) ↔
      ∀ member ∈ members.values, protocol ∈ member.protocols := by
    intro protocol
    simp only [mem_values]
    exact ⟨fun all member ⟨name, found⟩ => all name member found, fun all name member found =>
      all member ⟨name, found⟩⟩
  have emptiness : members.isEmpty = members.values.isEmpty := by
    rw [values_eq_map_toList, isEmpty_map, ExtTreeMap.isEmpty_toList]
  simp only [shared, emptiness, selectGroupProtocol_eq]
  cases members.values with
  | nil => simp [commonProtocol]
  | cons first rest =>
    simp only [map_cons, commonProtocol, orElse_eq_ok, isEmpty_cons, true_and, forall_mem_cons]
    constructor
    · rintro ⟨protocol, chosen⟩
      have member := mem_filter.mp (mem_of_head? chosen)
      refine ⟨protocol, ExtTreeMap.mem_keys.mp member.1, ?_⟩
      simpa [all_eq_true, ExtTreeMap.contains_iff_mem] using member.2
    · rintro ⟨protocol, spoken, others⟩
      have listed : protocol ∈ first.protocols.keys.filter
          fun protocol => (rest.map (·.protocols)).all (·.contains protocol) := by
        rw [mem_filter]
        refine ⟨ExtTreeMap.mem_keys.mpr spoken, ?_⟩
        simpa [all_eq_true, ExtTreeMap.contains_iff_mem] using others
      cases found : first.protocols.keys.filter
          fun protocol => (rest.map (·.protocols)).all (·.contains protocol) with
      | nil =>
        rw [found] at listed
        cases listed
      | cons head tail => exact ⟨head, rfl⟩

theorem selectGroupProtocol_subset {protocol : String}
    (chosen : selectGroupProtocol members = .ok protocol) (nonempty : members'.isEmpty = false)
    (fewer : ∀ (name : String) (member : GroupMember), members'[name]? = some member →
      members[name]? = some member) :
    ∃ protocol, selectGroupProtocol members' = .ok protocol := by
  obtain ⟨_, common, spoken⟩ := exists_selectGroupProtocol.mp ⟨protocol, chosen⟩
  exact exists_selectGroupProtocol.mpr ⟨nonempty, common, fun name member found =>
    spoken name member (fewer name member found)⟩

end Protocols

section Expiry

variable {orderly : Prop} {s : BrokerStateMachine} {runtime : Runtime} {group : GroupState}
  {name : Name} {now : Int} {project : ProjectId}

theorem commitGroup_meets (settled : Settled runtime orderly s) (edit : GroupEdit)
    (well : GroupWell orderly s.shelf edit.name.1 edit.group) :
    Settled runtime orderly (s.commitGroup edit) ∧
    Advances edit.name.1 nobody s (s.commitGroup edit) := by
  refine ⟨{ settled with grouped := ?_ }, Regrouped.advances rfl ?_⟩
  · intro name group found
    change (s.groups.insert edit.name edit.group)[name]? = _ at found
    rcases insert_eq_some.mp found with ⟨same, found⟩ | ⟨_, found⟩
    · exact same ▸ found ▸ well
    · exact settled.grouped name group found
  · exact fun apart => getElem?_insert_apart Prod.fst apart

theorem editGroup_eq_some (found : s.groups[name]? = some group) :
    s.editGroup name = some { name, group, changes := [] } := by
  simp [editGroup, found]

def generationExhausted : Error := Error.internal "group generation exhausted"

def Expiring (resolvedTimeMs : Int) (group : GroupState) : Prop :=
  ∃ (name : String) (member : GroupMember), group.members[name]? = some member ∧
    memberExpired resolvedTimeMs member = true

theorem any_expired : group.members.values.any (memberExpired now) = true ↔ Expiring now group := by
  simp only [any_eq_true, mem_values, Expiring]
  exact ⟨fun ⟨member, ⟨name, found⟩, expired⟩ => ⟨name, member, found, expired⟩,
    fun ⟨name, member, found, expired⟩ => ⟨member, ⟨name, found⟩, expired⟩⟩

theorem getElem?_unexpiredMembers {name : String} {member : GroupMember} :
    (unexpiredMembers group now)[name]? = some member ↔
      group.members[name]? = some member ∧ memberExpired now member = false := by
  unfold unexpiredMembers
  rw [ExtTreeMap.getElem?_filter', Option.filter_eq_some_iff, Bool.not_eq_true']

theorem unexpiredMembers_eq (none : ¬ Expiring now group) :
    unexpiredMembers group now = group.members := by
  apply ExtTreeMap.ext_getElem?
  intro name
  apply Option.ext
  intro member
  rw [getElem?_unexpiredMembers]
  refine and_iff_left_of_imp fun found => ?_
  rw [Bool.eq_false_iff]
  exact fun expired => none ⟨name, member, found, expired⟩

theorem leastMember_mem (nonempty : members.isEmpty = false) : leastMember members ∈ members := by
  unfold leastMember
  cases listed : members.keys with
  | nil =>
    rw [← ExtTreeMap.isEmpty_keys, listed] at nonempty
    cases nonempty
  | cons first rest =>
    rw [head?_cons, Option.getD_some, ← ExtTreeMap.mem_keys, listed]
    exact mem_cons_self

def expiredGroup (resolvedTimeMs : Int) (protocol : String) (group : GroupState) : GroupState :=
  let members := unexpiredMembers group resolvedTimeMs
  { group with
    members
    assignments := ∅
    generation := group.generation + 1
    leader := if members.contains group.leader then group.leader else leastMember members
    protocol }

/-- The group lost its silent members, and the others choose its protocol. -/
def Lapsed (resolvedTimeMs : Int) (group group' : GroupState) : Prop :=
  ∃ protocol, group' = expiredGroup resolvedTimeMs protocol group ∧
    ((unexpiredMembers group resolvedTimeMs).isEmpty = false →
      selectGroupProtocol (unexpiredMembers group resolvedTimeMs) = .ok protocol)

theorem GroupWell.common_unexpired {shelf : Shelf} (well : GroupWell orderly shelf project group)
    (nonempty : (unexpiredMembers group now).isEmpty = false) :
    ∃ protocol, selectGroupProtocol (unexpiredMembers group now) = .ok protocol := by
  have has : group.members.isEmpty = false := by
    rw [isEmpty_eq_false_iff_exists] at nonempty ⊢
    obtain ⟨name, member, kept⟩ := nonempty
    exact ⟨name, member, (getElem?_unexpiredMembers.mp kept).1⟩
  obtain ⟨protocol, chosen⟩ := well.common has
  exact selectGroupProtocol_subset chosen nonempty fun _ _ kept => (getElem?_unexpiredMembers.mp kept).1

theorem GroupWell.expire {shelf : Shelf} {protocol : String}
    (well : GroupWell orderly shelf project group)
    (chosen : (unexpiredMembers group now).isEmpty = false →
      selectGroupProtocol (unexpiredMembers group now) = .ok protocol) :
    GroupWell orderly shelf project (expiredGroup now protocol group) := by
  refine ⟨Int.le_add_one well.generation, fun nonempty => ⟨protocol, chosen nonempty⟩, ?_,
    fun assigned => absurd assigned ExtTreeMap.not_mem_empty, well.committed⟩
  intro _ nonempty
  refine ⟨?_, chosen nonempty⟩
  unfold expiredGroup
  dsimp only
  split
  next has => exact ExtTreeMap.contains_iff_mem.mp has
  · exact leastMember_mem nonempty

def ExpiryRoom (s : BrokerStateMachine) (project : ProjectId) (resolvedTimeMs : Int) : Prop :=
  ∀ (name : Name) (group : GroupState), s.groups[name]? = some group → name.1 = project →
    Expiring resolvedTimeMs group → group.generation + 1 ≤ i32Max

theorem mem_expiringGroups : name ∈ s.expiringGroups project now ↔ name.1 = project ∧
      ∃ group, s.groups[name]? = some group ∧ Expiring now group := by
  simp only [expiringGroups, mem_map, mem_filter, and_assoc, exists_mem_toList,
    Bool.and_eq_true, beq_iff_eq, any_expired]
  constructor
  · rintro ⟨other, group, found, within, expiring, rfl⟩
    exact ⟨within, group, found, expiring⟩
  · rintro ⟨within, group, found, expiring⟩
    exact ⟨name, group, found, within, expiring, rfl⟩

theorem expireGroup_meets (settled : Settled runtime orderly s) (now : Int)
    (found : s.groups[name]? = some group) : Meets (expireGroup now s name)
      (fun s' => group.generation + 1 ≤ i32Max ∧ Settled runtime orderly s' ∧
        Advances name.1 nobody s s' ∧ Regrouped s s' ∧ (∀ other, other ≠ name →
          s'.groups[other]? = s.groups[other]?) ∧
        ∃ group', s'.groups[name]? = some group' ∧ Lapsed now group group')
      (fun error => error = generationExhausted ∧ ¬ group.generation + 1 ≤ i32Max) := by
  have well := settled.grouped name group found
  have fewer : ∀ (member : String) (record : GroupMember),
      (unexpiredMembers group now)[member]? = some record →
        group.members[member]? = some record := fun _ _ kept => (getElem?_unexpiredMembers.mp kept).1
  unfold expireGroup
  apply Meets.passed (orElse_eq_ok.mpr (editGroup_eq_some found))
  apply Meets.check
  · exact fun full => ⟨rfl, of_decide_eq_false full⟩
  intro fits
  have room := of_decide_eq_true fits
  have finish : ∀ (protocol : String) (changes : List Event),
      ((unexpiredMembers group now).isEmpty = false →
        selectGroupProtocol (unexpiredMembers group now) = .ok protocol) →
      ∀ s', s' = s.commitGroup { name, changes, group := expiredGroup now protocol group } →
        group.generation + 1 ≤ i32Max ∧ Settled runtime orderly s' ∧ Advances name.1 nobody s s' ∧
          Regrouped s s' ∧ (∀ other, other ≠ name → s'.groups[other]? = s.groups[other]?) ∧
          ∃ group', s'.groups[name]? = some group' ∧ Lapsed now group group' := by
    rintro protocol changes chosen _ rfl
    obtain ⟨after, advances⟩ := commitGroup_meets settled
      { name, changes, group := expiredGroup now protocol group } (well.expire chosen)
    refine ⟨room, after, advances, rfl, ?_, _, ExtTreeMap.getElem?_insert_self, protocol, rfl, chosen⟩
    intro other apart
    change (s.groups.insert name _)[other]? = _
    rw [getElem?_insert, if_neg (Ne.symm apart)]
  dsimp only
  split
  next empty =>
    exact finish "" _ (fun nonempty => absurd (empty.symm.trans nonempty) nofun) _ rfl
  next nonempty =>
    obtain ⟨protocol, chosen⟩ := well.common_unexpired (Bool.eq_false_iff.mpr nonempty)
    exact Meets.passed chosen (finish protocol _ (fun _ => chosen) _ rfl)

structure Silenced (project : ProjectId) (resolvedTimeMs : Int) (s s' : BrokerStateMachine) : Prop where
  regrouped : Regrouped s s'
  known : ∀ {name : Name} {group : GroupState}, s.groups[name]? = some group →
    ∃ group', s'.groups[name]? = some group' ∧ (name.1 = project →
      group'.members = unexpiredMembers group resolvedTimeMs) ∧
    (¬ Expiring resolvedTimeMs group → group' = group) ∧
    (name.1 = project → Expiring resolvedTimeMs group → Lapsed resolvedTimeMs group group')
  unknown : ∀ {name : Name}, s.groups[name]? = none → s'.groups[name]? = none

theorem expireGroupMembers_meets (settled : Settled runtime orderly s)
    (project : ProjectId) (now : Int) : Meets (s.expireGroupMembers project now)
      (fun s' => ExpiryRoom s project now ∧ Settled runtime orderly s' ∧ Advances project nobody s s' ∧
        Silenced project now s s')
      (fun error => error = generationExhausted ∧ ¬ ExpiryRoom s project now) := by
  have distinct : (s.expiringGroups project now).Nodup := by
    have keys : (s.groups.toList.map (·.1)).Nodup := by
      rw [ExtTreeMap.map_fst_toList_eq_keys]
      exact ExtTreeMap.nodup_keys
    exact keys.sublist (filter_sublist.map _)
  have listed : ∀ name, name ∈ s.expiringGroups project now ↔ _ := fun name => mem_expiringGroups
  unfold expireGroupMembers
  generalize s.expiringGroups project now = names at distinct listed ⊢
  -- The groups done so far have lost their silent members, the others are as they were.
  refine Meets.imp (Meets.loop (fun done state => Settled runtime orderly state ∧
    Advances project nobody s state ∧ Regrouped s state ∧
    (∀ name : Name, name ∉ done → state.groups[name]? = s.groups[name]?) ∧
    ∀ name ∈ done, ∀ group, s.groups[name]? = some group → group.generation + 1 ≤ i32Max ∧
      ∃ group', state.groups[name]? = some group' ∧ Lapsed now group group')
    ⟨settled, .refl project s, rfl, fun _ _ => rfl, nofun⟩ ?_) ?_
  · rintro done name rest state whole ⟨settledState, advances, regrouped, others, finished⟩
    obtain ⟨within, group, found, expiring⟩ := (listed name).mp (by simp [← whole])
    have fresh : name ∉ done := by
      intro again
      rw [← whole] at distinct
      exact disjoint_of_nodup_append distinct again mem_cons_self
    refine Meets.mono (expireGroup_meets settledState now ((others name fresh).trans found)) ?_ ?_
    · rintro next ⟨room, settledNext, step, frame, still, last⟩
      refine ⟨settledNext, advances.trans (within ▸ step), regrouped.trans frame, ?_, ?_⟩
      · intro other apart
        rw [mem_append, mem_singleton, not_or] at apart
        exact (still other apart.2).trans (others other apart.1)
      · intro other member record known
        by_cases same : other = name
        · subst same
          rw [found, Option.some.injEq] at known
          exact known ▸ ⟨room, last⟩
        · have prior : other ∈ done := by simpa [same] using member
          rw [still other same]
          exact finished other prior record known
    · rintro error ⟨rfl, full⟩
      exact ⟨rfl, fun room => full (room name group found within expiring)⟩
  · rintro final ⟨settledFinal, advances, regrouped, others, finished⟩
    refine ⟨?_, settledFinal, advances, regrouped, ?_, ?_⟩
    · intro name group found within expiring
      exact (finished name ((listed name).mpr ⟨within, group, found, expiring⟩) group found).1
    · intro name group found
      by_cases member : name ∈ names
      · obtain ⟨_, group', has, kept⟩ := finished name member group found
        refine ⟨group', has, fun _ => ?_, fun none => ?_, fun _ _ => kept⟩
        · obtain ⟨protocol, rfl, _⟩ := kept
          rfl
        · obtain ⟨_, record, known, expiring⟩ := (listed name).mp member
          rw [found, Option.some.injEq] at known
          exact absurd (known ▸ expiring) none
      · have apart : name.1 = project → ¬ Expiring now group :=
          fun within expiring => member ((listed name).mpr ⟨within, group, found, expiring⟩)
        exact ⟨group, (others name member).trans found, fun within =>
          (unexpiredMembers_eq (apart within)).symm, fun _ => rfl,
            fun within expiring => absurd expiring (apart within)⟩
    · intro name absent
      refine (others name fun member => ?_).trans absent
      obtain ⟨_, group, known, _⟩ := (listed name).mp member
      cases absent.symm.trans known

end Expiry

end IronGraph.Broker
