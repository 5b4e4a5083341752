import IronGraph.Broker.Membership
import IronGraph.Broker.Balancing

/-!
The commands on consumer groups, and retention, which expires members too. They fail only when a
group has used up its generations.
-/

namespace IronGraph.Broker

open Std Outcome OrderedMap BrokerStateMachine Option
open ExtTreeMap (mem_insert not_mem_empty contains_iff_mem)

variable {project : ProjectId} {s : BrokerStateMachine} {runtime : Runtime} {group member : String}
  {generation : Int} {fail : Error → Prop}

section

variable (s : BrokerStateMachine)

/-- A generation is left where the join starts one: the member is new or joins with something new,
or the members, of which none has expired, would choose another protocol. -/
def JoinRoom (project : ProjectId) (group member : String) (sessionTimeoutMs : Nat)
    (resolvedTimeMs : Int) (protocols : Fields) : Prop :=
  ∀ state, s.groups[(project, group)]? = some state →
    ((∀ known, (unexpiredMembers state resolvedTimeMs)[member]? = some known →
        known.protocols ≠ protocols ∨ known.sessionTimeoutMs ≠ sessionTimeoutMs) ∨
      ¬ Expiring resolvedTimeMs state ∧ selectGroupProtocol state.members ≠ .ok state.protocol) →
    state.generation + 1 ≤ i32Max ∧ (Expiring resolvedTimeMs state → state.generation + 2 ≤ i32Max)

def GenerationRoom : BrokerCommand → Prop
  | .joinGroup project group member sessionTimeoutMs resolvedTimeMs protocols =>
    ExpiryRoom s project resolvedTimeMs ∧
      JoinRoom s project group member sessionTimeoutMs resolvedTimeMs protocols
  | .leaveGroup project group member => ∀ state, s.groups[(project, group)]? = some state →
      member ∈ state.members → state.generation + 1 ≤ i32Max
  | .heartbeatGroup project _ _ _ resolvedTimeMs => ExpiryRoom s project resolvedTimeMs
  | .retain project resolvedTimeMs => ExpiryRoom s project resolvedTimeMs
  | _ => True

/-- Nobody joins a group that has run empty, and nobody leaves behind members who would choose
another protocol. -/
def Tidy : BrokerCommand → Prop
  | .joinGroup project group _ _ resolvedTimeMs _ => ∀ state, s.groups[(project, group)]? = some state →
      (unexpiredMembers state resolvedTimeMs).isEmpty = false
  | .leaveGroup project group member =>
    ∀ state, s.groups[(project, group)]? = some state → member ∈ state.members →
      (state.members.erase member).isEmpty = false →
        selectGroupProtocol (state.members.erase member) = .ok state.protocol
  | _ => True

end

section Join

variable {orderly : Prop} {sessionTimeoutMs : Nat} {resolvedTimeMs : Int} {protocols : Fields}
  {expired : BrokerStateMachine}

structure Joinable (orderly : Prop) (shelf : Shelf) (project : ProjectId) (member : String)
    (record : GroupMember) (group : GroupState) : Prop where
  generation : 0 ≤ group.generation
  leader : orderly → group.leader ∈ group.members.insert member record
  common : ∃ protocol, selectGroupProtocol (group.members.insert member record) = .ok protocol
  assigned : ∀ {name : String}, name ∈ group.assignments → name ∈ group.members
  committed : ∀ {topic : String} {partition : Int} {offset : Nat},
    group.offsets[(topic, partition)]? = some offset → 0 ≤ partition ∧
      ∃ stream, shelf (.partition (project, topic) partition.toNat) = some stream ∧
        offset ≤ stream.nextOffset

theorem joinedGroup_joinable
    (tidy : orderly → Tidy s (.joinGroup project group member sessionTimeoutMs
      resolvedTimeMs protocols))
    (accepted : s.validateCommand (.joinGroup project group member sessionTimeoutMs resolvedTimeMs
      protocols) = .ok ())
    (settled : Settled runtime orderly expired) (silenced : Silenced project resolvedTimeMs s expired) :
    (expired.joinedGroup (project, group) member).name = (project, group) ∧
      Joinable orderly expired.shelf project member
        { protocols, sessionTimeoutMs, lastHeartbeatMs := resolvedTimeMs }
        (expired.joinedGroup (project, group) member).group := by
  obtain ⟨_, _, accepted⟩ := bind_eq_ok.mp accepted
  obtain ⟨_, _, accepted⟩ := bind_eq_ok.mp accepted
  obtain ⟨_, valid, accepted⟩ := bind_eq_ok.mp accepted
  obtain ⟨_, _, valid⟩ := bind_eq_ok.mp valid
  obtain ⟨_, some, _⟩ := bind_eq_ok.mp valid
  rw [require_eq_ok, Bool.and_eq_true, Bool.not_eq_true'] at some
  unfold joinedGroup
  cases found : s.groups[(project, group)]? with
  | none =>
    have absent : expired.editGroup (project, group) = none := by
      simp [editGroup, silenced.unknown found]
    rw [absent, getD_none]
    refine ⟨rfl, Int.le_refl 0, fun _ => ExtTreeMap.mem_insert_self, ?_,
      fun assigned => absurd assigned not_mem_empty, by simp⟩
    rw [exists_selectGroupProtocol]
    obtain ⟨protocol, _, spoken⟩ := isEmpty_eq_false_iff_exists.mp some.1
    refine ⟨isEmpty_eq_false_iff_exists.mpr ⟨member, _, ExtTreeMap.getElem?_insert_self⟩, protocol, ?_⟩
    intro name record recorded
    rcases insert_eq_some.mp recorded with ⟨_, recorded⟩ | ⟨_, recorded⟩
    · rw [← recorded, ExtTreeMap.mem_iff_isSome_getElem?, spoken]
      rfl
    · cases recorded
  | some state =>
    obtain ⟨after, has, members, _⟩ := silenced.known found
    have kept := members rfl
    have well := settled.grouped _ after has
    rw [editGroup_eq_some has, getD_some]
    refine ⟨rfl, well.generation, ?_, ?_, well.assigned, well.committed⟩
    · intro held
      have nonempty := tidy held state found
      rw [← kept] at nonempty
      exact mem_insert.mpr (.inr (well.led held nonempty).1)
    · simp only [found] at accepted
      obtain ⟨protocol, chosen, _⟩ := bind_eq_ok.mp accepted
      refine ⟨protocol, (selectGroupProtocol_congr ?_).trans chosen⟩
      intro name
      change ((after.members.insert member _)[name]?).map _ = _
      rw [kept, getElem?_insert, getElem?_insert]
      split <;> rfl

theorem Joinable.well {shelf : Shelf} {record : GroupMember} {group group' : GroupState}
    (joinable : Joinable orderly shelf project member record group)
    (chosen : selectGroupProtocol (group.members.insert member record) = .ok group'.protocol)
    (members : group'.members = group.members.insert member record)
    (leader : group'.leader = group.leader)
    (generation : 0 ≤ group'.generation) (offsets : group'.offsets = group.offsets)
    (assigned : ∀ {name : String}, name ∈ group'.assignments → name ∈ group.assignments) :
    GroupWell orderly shelf project group' := by
  refine ⟨generation, fun _ => ⟨_, members ▸ chosen⟩, ?_, ?_, ?_⟩
  · intro held _
    rw [leader, members]
    exact ⟨joinable.leader held, chosen⟩
  · intro name listed
    rw [members]
    exact mem_insert.mpr (.inr (joinable.assigned (assigned listed)))
  · intro topic part offset found
    exact joinable.committed (offsets ▸ found)

theorem membershipChanges_iff {members : ExtTreeMap String GroupMember} {member : String}
    {protocols : Fields}
    {sessionTimeoutMs : Nat} : membershipChanges members member protocols sessionTimeoutMs = true ↔
      ∀ known : GroupMember, members[member]? = some known →
        known.protocols ≠ protocols ∨ known.sessionTimeoutMs ≠ sessionTimeoutMs := by
  simp [membershipChanges, Option.all_eq_true]

/-- The generation that a join checks, once the silent members have expired, is the one that has to
be left before. -/
theorem joinRoom_iff {project : ProjectId} {group member protocol : String} {protocols : Fields}
    {sessionTimeoutMs : Nat}
    {resolvedTimeMs : Int} (silenced : Silenced project resolvedTimeMs s expired)
    (chosen : selectGroupProtocol ((expired.joinedGroup (project,
      group) member).group.members.insert member
      { protocols, sessionTimeoutMs, lastHeartbeatMs := resolvedTimeMs }) = .ok protocol) :
    JoinRoom s project group member sessionTimeoutMs resolvedTimeMs protocols ↔
      ((membershipChanges (expired.joinedGroup (project, group) member).group.members member
        protocols sessionTimeoutMs || (expired.joinedGroup (project,
          group) member).group.protocol != protocol) = true →
            (expired.joinedGroup (project, group) member).group.generation + 1 ≤ i32Max) := by
  unfold JoinRoom
  unfold joinedGroup at chosen ⊢
  cases found : s.groups[(project, group)]? with
  | none =>
    have absent : expired.editGroup (project, group) = none := by
      simp [editGroup, silenced.unknown found]
    simp [absent, i32Max]
  | some state =>
    obtain ⟨after, has, members, unchanged, lapsed⟩ := silenced.known found
    rw [editGroup_eq_some has, getD_some] at chosen ⊢
    dsimp only at chosen ⊢
    rw [members rfl] at chosen ⊢
    -- A member that joins again as it is changes nothing that the protocol depends on.
    have again : ∀ known, (unexpiredMembers state resolvedTimeMs)[member]? = some known →
        known.protocols = protocols → selectGroupProtocol (unexpiredMembers state resolvedTimeMs) =
          .ok protocol := by
      rintro known kept rfl
      refine (selectGroupProtocol_congr fun name => ?_).symm.trans chosen
      rw [getElem?_insert]
      split
      next same => simp [← same, kept]
      · rfl
    have bound : after.generation + 1 ≤ i32Max ↔ state.generation + 1 ≤ i32Max ∧
        (Expiring resolvedTimeMs state → state.generation + 2 ≤ i32Max) := by
      by_cases expiring : Expiring resolvedTimeMs state
      · obtain ⟨_, rfl, _⟩ := lapsed rfl expiring
        simp only [expiredGroup, expiring, forall_const]
        omega
      · simp [unchanged expiring, expiring]
    rw [bound, Bool.or_eq_true, membershipChanges_iff, bne_iff_ne]
    simp only [some.injEq, forall_eq']
    refine imp_congr_left ?_
    by_cases known : ∀ known, (unexpiredMembers state resolvedTimeMs)[member]? = some known →
        known.protocols ≠ protocols ∨ known.sessionTimeoutMs ≠ sessionTimeoutMs
    · exact iff_of_true (.inl known) (.inl known)
    · rw [or_iff_right known, or_iff_right known]
      push Not at known
      obtain ⟨record, kept, spoken, _⟩ := known
      have picked := again record kept spoken
      by_cases expiring : Expiring resolvedTimeMs state
      · obtain ⟨_, rfl, picks⟩ := lapsed rfl expiring
        have same := picked.symm.trans (picks (isEmpty_eq_false_iff_exists.mpr ⟨member, record, kept⟩))
        simp [expiring, expiredGroup, Except.ok.inj same]
      · rw [unexpiredMembers_eq expiring] at picked
        simp [expiring, unchanged expiring, picked, eq_comm]

theorem joinGroup_meets (settled : Settled runtime orderly s)
    (tidy : orderly → Tidy s (.joinGroup project group member sessionTimeoutMs
      resolvedTimeMs protocols))
    (accepted : s.validateCommand (.joinGroup project group member sessionTimeoutMs resolvedTimeMs
    protocols) = .ok ()) :
    Meets (s.joinGroup project group member sessionTimeoutMs resolvedTimeMs protocols)
      (fun joined => GenerationRoom s (.joinGroup project group member sessionTimeoutMs
        resolvedTimeMs protocols) ∧ Keeps runtime orderly project s joined)
      (fun error => error = generationExhausted ∧
        ¬ GenerationRoom s (.joinGroup project group member sessionTimeoutMs resolvedTimeMs
          protocols)) := by
  have checks := accepted
  obtain ⟨_, namedGroup, accepted⟩ := bind_eq_ok.mp accepted
  obtain ⟨_, namedMember, accepted⟩ := bind_eq_ok.mp accepted
  obtain ⟨_, valid, accepted⟩ := bind_eq_ok.mp accepted
  unfold joinGroup
  apply Meets.passed namedGroup
  apply Meets.passed namedMember
  apply Meets.passed valid
  have expiry := expireGroupMembers_meets settled project resolvedTimeMs
  cases outcome : s.expireGroupMembers project resolvedTimeMs with
  | error error =>
    rw [outcome] at expiry
    exact ⟨expiry.1, fun room => expiry.2 room.1⟩
  | ok expired =>
    rw [outcome] at expiry
    obtain ⟨room, after, advances, silenced⟩ := expiry
    obtain ⟨named, joinable⟩ := joinedGroup_joinable tidy checks after silenced
    obtain ⟨protocol, chosen⟩ := joinable.common
    apply Meets.passed rfl
    apply Meets.passed chosen
    have decided : GenerationRoom s (.joinGroup project group member sessionTimeoutMs resolvedTimeMs
        protocols) ↔ _ :=
      (and_iff_right room).trans (joinRoom_iff silenced chosen)
    rw [decided]
    clear decided
    generalize expired.joinedGroup (project, group) member = edit at named joinable chosen ⊢
    obtain ⟨name, state, changes⟩ := edit
    obtain rfl : name = (project, group) := named
    split
    next changed =>
      apply Meets.check
      · exact fun full => ⟨rfl, fun fits => of_decide_eq_false full (fits changed)⟩
      intro fits
      refine ⟨fun _ => of_decide_eq_true fits, ?_⟩
      obtain ⟨last, joined⟩ := commitGroup_meets after (GroupEdit.clearAssignments
        { name := (project, group)
          group := { state with
            members := state.members.insert member
              { protocols, sessionTimeoutMs, lastHeartbeatMs := resolvedTimeMs }
            protocol
            generation := state.generation + 1 }
          changes := changes ++ [.member (project, group) member
            (some { protocols, sessionTimeoutMs, lastHeartbeatMs := resolvedTimeMs })] })
        (joinable.well chosen rfl rfl (Int.le_add_one joinable.generation) rfl
          fun assigned => absurd assigned not_mem_empty)
      exact ⟨last, advances.trans joined⟩
    next unchanged =>
      refine ⟨fun changed => absurd changed unchanged, ?_⟩
      have same : state.protocol = protocol := by
        rw [Bool.or_eq_true, not_or, bne_iff_ne, ne_eq, not_not] at unchanged
        exact unchanged.2
      obtain ⟨last, joined⟩ := commitGroup_meets after (GroupEdit.insertMember
        { name := (project, group), group := state, changes } member
        { protocols, sessionTimeoutMs, lastHeartbeatMs := resolvedTimeMs })
        (joinable.well (same ▸ chosen) rfl rfl joinable.generation rfl fun assigned => assigned)
      exact ⟨last, advances.trans joined⟩

end Join

section Sync

variable {orderly : Prop} {s : BrokerStateMachine} {assignments : Fields}

theorem mem_of_mapM_eq_some {α β : Type} {compute : α → Option β} {items : List α} {values : List β}
    (computed : items.mapM compute = some values) {value : β} (member : value ∈ values) :
    ∃ item ∈ items, compute item = some value := by
  induction items generalizing values with
  | nil =>
    rw [List.mapM_nil, pure_def, some.injEq] at computed
    exact absurd (computed ▸ member) nofun
  | cons first rest ih =>
    simp only [List.mapM_cons, bind_eq_bind, bind_eq_some_iff, pure_def, some.injEq]
      at computed
    obtain ⟨head, here, tail, later, rfl⟩ := computed
    rcases List.mem_cons.mp member with rfl | inside
    · exact ⟨first, List.mem_cons_self, here⟩
    · obtain ⟨item, listed, found⟩ := ih later inside
      exact ⟨item, List.mem_cons_of_mem _ listed, found⟩

theorem rebalancedAssignment_mem {group : GroupState}
    (balanced : s.rebalancedAssignment project group = some assignments)
    (assigned : member ∈ assignments) : member ∈ group.members := by
  unfold rebalancedAssignment at balanced
  simp only [bind_eq_bind, bind_eq_some_iff] at balanced
  obtain ⟨entries, listed, balanced⟩ := balanced
  split at balanced
  · cases balanced
  rw [pure_def, some.injEq] at balanced
  subst balanced
  have subscribed := (dealt_lagOrder.members _).mp (ExtTreeMap.mem_map.mp assigned)
  rw [ExtTreeMap.mem_ofList, List.contains_iff_mem, List.mem_map] at subscribed
  obtain ⟨entry, inside, rfl⟩ := subscribed
  obtain ⟨⟨name, record⟩, has, computed⟩ := mem_of_mapM_eq_some listed inside
  simp only [memberSubscription, bind_eq_bind, bind_eq_some_iff, pure_def, some.injEq] at computed
  obtain ⟨_, _, _, _, rfl⟩ := computed
  rw [← ExtTreeMap.mem_keys, ← ExtTreeMap.map_fst_toList_eq_keys]
  exact List.mem_map_of_mem has

theorem installAssignments_well {shelf : Shelf} {edit : GroupEdit}
    (well : GroupWell orderly shelf project edit.group)
    (fit : ∀ {member : String}, member ∈ assignments → member ∈ edit.group.members) :
    (installAssignments edit assignments).name = edit.name ∧
      GroupWell orderly shelf project (installAssignments edit assignments).group := by
  let Fits (state : GroupEdit) : Prop := state.name = edit.name ∧
    GroupWell orderly shelf project state.group ∧ state.group.members = edit.group.members
  suffices fits : Fits (installAssignments edit assignments) from ⟨fits.1, fits.2.1⟩
  refine List.foldlRecOn (motive := Fits) _ _ ⟨rfl, ?_, rfl⟩ ?_
  · exact { well with assigned := fun assigned => absurd assigned not_mem_empty }
  · rintro state ⟨named, held, members⟩ ⟨member, assignment⟩ listed
    refine ⟨named, { held with assigned := ?_ }, members⟩
    intro other assigned
    rcases mem_insert.mp assigned with same | before
    · change other ∈ state.group.members
      rw [← LawfulEqCmp.compare_eq_iff_eq.mp same, members]
      apply fit
      rw [← ExtTreeMap.mem_keys, ← ExtTreeMap.map_fst_toList_eq_keys]
      exact List.mem_map_of_mem listed
    · exact held.assigned before

theorem syncGroup_meets (settled : Settled runtime orderly s)
    (valid : s.validateCommand (.syncGroup project group generation assignments) = .ok ()) :
    Meets (s.syncGroup project group generation assignments)
      (Keeps runtime orderly project s) fail := by
  obtain ⟨state, found, valid⟩ := bind_eq_ok.mp valid
  obtain ⟨_, current, fits⟩ := bind_eq_ok.mp valid
  rw [orElse_eq_ok] at found
  have well := settled.grouped _ state found
  unfold syncGroup
  apply Meets.passed (orElse_eq_ok.mpr (editGroup_eq_some found))
  apply Meets.passed current
  apply Meets.passed fits
  rw [require_eq_ok, assignmentsFit, Bool.or_eq_true, Bool.and_eq_true, List.all_eq_true] at fits
  generalize installed : (bif assignments.isEmpty then
    ({ name := (project, group), group := state, changes := [] } :
    GroupEdit) else installAssignments { name := (project, group), group := state, changes := [] }
      assignments) = first
  have firstWell : first.name = (project, group) ∧ GroupWell orderly s.shelf project first.group := by
    rw [← installed]
    cases empty : assignments.isEmpty with
    | true => exact ⟨rfl, well⟩
    | false =>
      refine installAssignments_well (show GroupWell orderly s.shelf project
        ({ name := (project, group), group := state, changes := [] } : GroupEdit).group from well) ?_
      intro member listed
      rcases fits with none | fit
      · cases empty.symm.trans none
      · exact contains_iff_mem.mp (fit.2 member (ExtTreeMap.mem_keys.mpr listed))
  have commit : ∀ edit : GroupEdit, edit.name = (project, group) →
      GroupWell orderly s.shelf project edit.group → Settled runtime orderly (s.commitGroup edit) ∧
        Advances project nobody s (s.commitGroup edit) := by
    intro edit named held
    have committed := commitGroup_meets settled edit (named ▸ held)
    rwa [named] at committed
  dsimp only
  split
  next computed =>
    obtain ⟨named, held⟩ := installAssignments_well firstWell.2 (rebalancedAssignment_mem computed)
    exact commit _ (named.trans firstWell.1) held
  · exact commit first firstWell.1 firstWell.2

end Sync

section Commit

variable {orderly : Prop}
  (settled : Settled runtime orderly s)

include settled

theorem commitOffset_meets {topic : String} {part : Int} {offset : Nat} {generation : Option Int}
    {member : Option String}
    (valid : s.validateCommand (.commitOffset project group topic part offset generation member) =
    .ok ()) : Meets (s.commitOffset project group topic part offset generation member)
      (Keeps runtime orderly project s) fail := by
  obtain ⟨id, located, valid⟩ := bind_eq_ok.mp valid
  obtain ⟨stream, found, valid⟩ := bind_eq_ok.mp valid
  obtain ⟨_, reached, valid⟩ := bind_eq_ok.mp valid
  obtain ⟨state, known, allowed⟩ := bind_eq_ok.mp valid
  rw [orElse_eq_ok] at found known
  rw [require_eq_ok, decide_eq_true_eq] at reached
  have well := settled.grouped _ state known
  apply Meets.passed located
  apply Meets.passed (orElse_eq_ok.mpr (editGroup_eq_some known))
  apply Meets.passed allowed
  refine commitGroup_meets settled (GroupEdit.insertOffset
    { name := (project, group), group := state, changes := [] }
    (topic, part) offset) { well with committed := ?_ }
  intro other index value recorded
  change (state.offsets.insert (topic, part) offset)[(other, index)]? = some value at recorded
  rw [getElem?_insert] at recorded
  split at recorded
  next same =>
    rw [Prod.mk.injEq] at same
    rw [some.injEq] at recorded
    obtain ⟨nonnegative, here⟩ := partitionStream_inProject located
    rw [← same.1, ← same.2, ← recorded]
    exact ⟨nonnegative, stream, shelfOf_eq_some.mpr ⟨id, here, found⟩, reached⟩
  · exact well.committed recorded

theorem leaveGroup_meets (tidy : orderly → Tidy s (.leaveGroup project group member))
    (valid : s.validateCommand (.leaveGroup project group member) = .ok ()) :
    Meets (s.leaveGroup project group member)
      (fun left => GenerationRoom s (.leaveGroup project group member) ∧
        Keeps runtime orderly project s left)
      (fun error => error = generationExhausted ∧
        ¬ GenerationRoom s (.leaveGroup project group member)) := by
  rw [validateCommand, require_eq_ok, contains_iff_exists] at valid
  obtain ⟨state, known⟩ := valid
  have well := settled.grouped _ state known
  have decided : GenerationRoom s (.leaveGroup project group member) ↔
      (member ∈ state.members → state.generation + 1 ≤ i32Max) := by
    constructor
    · exact fun room => room state known
    · intro room other found
      obtain rfl := some.inj (known.symm.trans found)
      exact room
  rw [decided]
  unfold leaveGroup
  apply Meets.passed (orElse_eq_ok.mpr (editGroup_eq_some known))
  split
  next has =>
    have joined := contains_iff_mem.mp has
    apply Meets.check
    · exact fun full => ⟨rfl, fun room => of_decide_eq_false full (room joined)⟩
    intro fits
    refine ⟨fun _ => of_decide_eq_true fits, ?_⟩
    have fewer : ∀ (name : String) (record : GroupMember),
        (state.members.erase member)[name]? = some record → state.members[name]? = some record := by
      intro name record found
      replace found := (erase_eq_some.mp found).2
      exact found
    have occupied : state.members.isEmpty = false := by
      rw [mem_iff_exists] at joined
      obtain ⟨record, found⟩ := joined
      exact isEmpty_eq_false_iff_exists.mpr ⟨member, record, found⟩
    refine commitGroup_meets settled
      { name := (project, group)
        group :=
          { state with
            members := state.members.erase member
            assignments := ∅
            generation := state.generation + 1
            leader := if state.leader = member then leastMember (state.members.erase member)
              else state.leader }
        changes := _ }
      ⟨Int.le_add_one well.generation, ?_, ?_, fun assigned => absurd assigned not_mem_empty,
        well.committed⟩
    · intro nonempty
      obtain ⟨protocol, chosen⟩ := well.common occupied
      exact selectGroupProtocol_subset chosen nonempty fewer
    · intro held nonempty
      refine ⟨?_, tidy held state known joined nonempty⟩
      dsimp only
      split
      · exact leastMember_mem nonempty
      next apart =>
        rw [ExtTreeMap.mem_erase, ne_eq, LawfulEqCmp.compare_eq_iff_eq]
        exact ⟨Ne.symm apart, (well.led held occupied).1⟩
  next absent =>
    refine ⟨fun joined => absurd (contains_iff_mem.mpr joined) absent, ?_⟩
    exact commitGroup_meets settled { name := (project, group), group := state, changes := [] } well

theorem heartbeatGroup_meets {now : Int}
    (valid : s.validateCommand (.heartbeatGroup project group generation member now) = .ok ()) :
    Meets (s.heartbeatGroup project group generation member now)
      (fun beaten => GenerationRoom s (.heartbeatGroup project group generation member now) ∧
        Keeps runtime orderly project s beaten)
      (fun error => error = generationExhausted ∧
        ¬ GenerationRoom s (.heartbeatGroup project group generation member now)) := by
  obtain ⟨state, known, checked⟩ := bind_eq_ok.mp valid
  rw [orElse_eq_ok] at known
  simp only [require_eq_ok, Bool.not_eq_true', Bool.or_eq_false_iff, bne_eq_false_iff_eq,
    Bool.not_eq_false', any_eq_true] at checked
  obtain ⟨⟨awake, current⟩, record, recorded, _⟩ := checked
  have quiet : ¬ Expiring now state := by
    rw [← any_expired, awake]
    exact nofun
  unfold heartbeatGroup
  apply Meets.bind (Meets.imp (expireGroupMembers_meets settled project now) (fun _ held => held))
  rintro expired ⟨room, after, advances, silenced⟩
  -- The group has nobody to expire, so that it is as it was when the command was checked.
  obtain ⟨same, has, _, unchanged, _⟩ := silenced.known known
  obtain rfl := unchanged quiet
  have well := after.grouped _ same has
  apply Meets.passed (orElse_eq_ok.mpr (editGroup_eq_some has))
  apply Meets.require (beq_iff_eq.mpr current)
  apply Meets.passed (orElse_eq_ok.mpr recorded)
  refine ⟨room, ?_⟩
  have protocols : selectGroupProtocol (same.members.insert member { record with
      lastHeartbeatMs := now }) = selectGroupProtocol same.members := by
    apply selectGroupProtocol_congr
    intro name
    rw [getElem?_insert]
    split
    next here => rw [← here, recorded]; rfl
    · rfl
  have occupied : same.members.isEmpty = false :=
    isEmpty_eq_false_iff_exists.mpr ⟨member, record, recorded⟩
  obtain ⟨last, beaten⟩ := commitGroup_meets after
    (GroupEdit.insertMember { name := (project, group), group := same, changes := [] } member
      { record with lastHeartbeatMs := now })
    ⟨well.generation, fun _ => protocols ▸ well.common occupied,
      fun held _ => ⟨mem_insert.mpr (.inr (well.led held occupied).1),
        protocols.trans (well.led held occupied).2⟩,
      fun assigned => mem_insert.mpr (.inr (well.assigned assigned)), well.committed⟩
  exact ⟨last, advances.trans beaten⟩

theorem retainProject_meets (project : ProjectId) (now : Int) : Meets (s.retainProject project now)
      (fun retained => GenerationRoom s (.retain project now) ∧
        Keeps runtime orderly project s retained ∧
        ∃ expired, s.expireGroupMembers project now = .ok expired ∧
          Retains (expired.expireDeliveryLeases project now) retained.1 project now)
      (fun error => error = generationExhausted ∧ ¬ GenerationRoom s (.retain project now)) := by
  have expiry := expireGroupMembers_meets settled project now
  unfold retainProject
  cases expires : s.expireGroupMembers project now with
  | error error => exact expiry.error_fail expires
  | ok expired =>
    obtain ⟨room, settledExpired, silenced, _⟩ := expiry.ok_post expires
    obtain ⟨settledReleased, released⟩ := expireDeliveryLeases_settled settledExpired project now
    apply Meets.bind (retain_meets settledReleased project now)
    rintro ⟨trimmed, removed, candidates⟩ ⟨shed, inv, charged, retains⟩
    apply Meets.bind (reclaimPayloadCandidates_meets inv charged)
    rintro final ⟨frame, reclaimed, last⟩
    have shelf : final.shelf = trimmed.shelf := by rw [frame]; rfl
    exact ⟨room, ⟨last, ((silenced.trans released).trans shed).trans reclaimed⟩, expired, rfl,
      shelf ▸ retains⟩

end Commit

end IronGraph.Broker
