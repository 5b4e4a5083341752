import IronGraph.Broker.Catalog

/-!
What is taken off the catalog again: topics with what groups knew of them, consumers with the queues
they were the last use of, bindings and exchanges.
-/

namespace IronGraph.Broker

open Std Outcome OrderedMap BrokerStateMachine

variable {project : ProjectId} {s' s : BrokerStateMachine} {name queue : String} {runtime : Runtime}
  {fail : Error → Prop}

section Withdraw

variable {orderly : Prop} {s : BrokerStateMachine}

def forgotten (topic : String) (group : GroupState) : GroupState := { group with
    offsets := group.offsets.filter fun key _ => key.1 != topic
    assignments := ∅ }

def Regrouped (s s' : BrokerStateMachine) : Prop :=
  s' = { s with groups := s'.groups, capture := s'.capture }

theorem Regrouped.trans {first second third : BrokerStateMachine} (before : Regrouped first second)
    (after : Regrouped second third) :
    Regrouped first third := by
  unfold Regrouped at *
  rw [after, before]

theorem Regrouped.advances (frame : Regrouped s s')
    (groups : ∀ {name : Name}, name.1 ≠ project → s'.groups[name]? = s.groups[name]?) :
    Advances project nobody s s' := by
  refine ⟨⟨?_, ?_, ?_, ?_, groups, ?_, ?_, ?_, ?_⟩, .of_same ?_ ?_ ?_⟩
  all_goals intros; rw [frame]
  · rfl
  · rfl

theorem forgetTopics_groups (topic : String) {names : List Name} (distinct : names.Nodup) :
    Regrouped s (names.foldl (forgetTopic topic) s) ∧
    ∀ name, (names.foldl (forgetTopic topic) s).groups[name]? =
        if name ∈ names then s.groups[name]?.map (forgotten topic) else s.groups[name]? := by
  induction names generalizing s with
  | nil => exact ⟨rfl, fun _ => by simp⟩
  | cons first rest ih =>
    obtain ⟨fresh, distinct⟩ := List.nodup_cons.mp distinct
    have step : Regrouped s (s.forgetTopic topic first) ∧
        ∀ name, (s.forgetTopic topic first).groups[name]? =
        if name = first then s.groups[name]?.map (forgotten topic) else s.groups[name]? := by
      cases found : s.groups[first]? with
      | none =>
        have quiet : s.forgetTopic topic first = s := by simp [forgetTopic, editGroup, found]
        rw [quiet]
        refine ⟨rfl, fun name => ?_⟩
        split
        next same => simp [same, found]
        · rfl
      | some group =>
        have written : s.forgetTopic topic first = s.commitGroupChildren
            (({ name := first, group, changes := [] } : GroupEdit).retainOffsets
              fun key _ => key.1 != topic).clearAssignments := by
          simp [forgetTopic, editGroup, found]
        rw [written]
        refine ⟨rfl, fun name => ?_⟩
        change (s.groups.insert first (forgotten topic group))[name]? = _
        rw [getElem?_insert]
        simp only [eq_comm]
        split
        next same => rw [← same, found, Option.map_some]
        · rfl
    obtain ⟨continued, groups⟩ := ih (s := s.forgetTopic topic first) distinct
    refine ⟨step.1.trans continued, fun name => ?_⟩
    rw [List.foldl_cons, groups name, step.2 name]
    by_cases same : name = first
    · simp [same, fresh]
    · simp [same]

theorem removeStreams_streams (ids : List StreamId) : Restreamed s (ids.foldl removeStream s) ∧
    ∀ id : StreamId,
      (ids.foldl removeStream s).streams[id]? = if id ∈ ids then none else s.streams[id]? := by
  induction ids generalizing s with
  | nil => exact ⟨rfl, fun _ => by simp⟩
  | cons first rest ih =>
    obtain ⟨frame, streams⟩ := ih (s := s.removeStream first)
    refine ⟨Restreamed.trans (show Restreamed s (s.removeStream first) from rfl) frame, fun id => ?_⟩
    rw [List.foldl_cons, streams id]
    change (if id ∈ rest then none else (s.streams.erase first)[id]?) = _
    rw [getElem?_erase]
    by_cases same : id = first
    · simp [same]
    · simp [same, Ne.symm same]

theorem GroupWell.forget {shelf shelf' : Shelf} {topic : String} {group : GroupState}
    (well : GroupWell orderly shelf project group)
    (kept : ∀ other index, other ≠ topic → shelf' (.partition (project, other) index) =
    shelf (.partition (project, other) index)) :
    GroupWell orderly shelf' project (forgotten topic group) := by
  refine ⟨well.generation, well.common, well.led, fun assigned =>
    absurd assigned ExtTreeMap.not_mem_empty, ?_⟩
  intro other part offset found
  change (group.offsets.filter _)[(other, part)]? = some offset at found
  rw [ExtTreeMap.getElem?_filter', Option.filter_eq_some_iff] at found
  obtain ⟨nonnegative, stream, standing, reached⟩ := well.committed found.1
  refine ⟨nonnegative, stream, ?_, reached⟩
  rw [kept other _ (by simpa using found.2)]
  exact standing

theorem mem_streamMessages {ids : List StreamId} {msg : MessageId} :
    msg ∈ s.streamMessages ids ↔ ∃ id ∈ ids, ∃ stream, s.streams[id]? = some stream ∧
    msg ∈ stream.messages := by
  simp only [streamMessages, List.mem_flatMap]
  refine exists_congr fun id => and_congr_right fun _ => ?_
  cases s.streams[id]? with
  | none => simp
  | some stream => simp

def partitionOf (name : Name) : Slot → Bool
  | .partition other _ => decide (other = name)
  | .queue _ => false

structure Unlisted (project : ProjectId) (name : String) (topic : Topic)
    (s final : BrokerStateMachine) : Prop where
  declared : s.topics[(project, name)]? = some topic
  frame : final = { s with
    topics := s.topics.erase (project, name)
    streams := final.streams
    groups := final.groups
    capture := final.capture }
  streams : ∀ id : StreamId, final.streams[id]? = if id ∈ topic.partitions then none else s.streams[id]?
  groups : ∀ other : Name, final.groups[other]? =
    if other.1 = project then s.groups[other]?.map (forgotten name) else s.groups[other]?

section Unlisted

variable {topic : Topic} {final : BrokerStateMachine}
  (unlisted : Unlisted project name topic s final)

include unlisted

theorem Unlisted.eq : ∃ streams groups capture,
    final = { s with topics := s.topics.erase (project, name), streams, groups, capture } :=
  ⟨_, _, _, unlisted.frame⟩

theorem Unlisted.located (index : Nat) :
    slotStream s.topics s.queues (.partition (project, name) index) = topic.partitions[index]? := by
  simp [slotStream, unlisted.declared]

theorem Unlisted.withdrawn :
    Withdrawn s.topics final.topics s.queues final.queues s.streams final.streams
    (partitionOf (project, name)) := by
  obtain ⟨_, _, _, rfl⟩ := unlisted.eq
  refine ⟨?_, ?_, ?_⟩
  · intro slot
    cases slot with
    | queue other => rfl
    | partition other index =>
      by_cases same : other = (project, name)
      · simp [slotStream, partitionOf, same]
      · simp [slotStream, partitionOf, same, getElem?_erase, Ne.symm same]
  · intro slot id leaves found
    cases slot with
    | queue other => cases leaves
    | partition other index =>
      rw [of_decide_eq_true leaves, unlisted.located] at found
      rw [unlisted.streams, if_pos (List.mem_of_getElem? found)]
  · intro id elsewhere
    rw [unlisted.streams, if_neg]
    intro mem
    obtain ⟨index, found⟩ := List.mem_iff_getElem?.mp mem
    exact elsewhere (.partition (project,
      name) index) (decide_eq_true rfl) ((unlisted.located index).trans found)

section

variable (settled : Settled runtime orderly s)

include settled

theorem Unlisted.shelf (slot : Slot) :
    final.shelf slot = bif partitionOf (project, name) slot then none else s.shelf slot :=
  settled.owned.shelfOf_withdraw unlisted.withdrawn slot

theorem Unlisted.grouped : Grouped orderly final.groups final.shelf := by
  intro other group found
  rw [unlisted.groups other] at found
  split at found
  next same =>
    subst same
    obtain ⟨before, known, rfl⟩ := Option.map_eq_some_iff.mp found
    refine (settled.grouped other before known).forget fun named index apart => ?_
    rw [unlisted.shelf settled]
    simp [partitionOf, Prod.ext_iff, apart]
  next apart =>
    refine { settled.grouped other group found with committed := ?_ }
    intro named part offset committed
    obtain ⟨nonnegative, stream, standing, reached⟩ :=
      (settled.grouped other group found).committed committed
    refine ⟨nonnegative, stream, ?_, reached⟩
    rw [unlisted.shelf settled]
    simpa [partitionOf, Prod.ext_iff, apart] using standing

theorem Unlisted.leased : Leased final.shelf final.deliveryLeases (fun _ => False) := by
  obtain ⟨_, _, _, rfl⟩ := unlisted.eq
  refine (settled.leased.withdraw (unlisted.shelf settled)).settle ?_
  rintro other owner (outlived | ⟨slot, stream, leaves, _, standing, held⟩)
  · exact .inr outlived
  · obtain ⟨_, _, rfl, _⟩ := settled.classic slot stream owner standing held
    cases leaves

theorem Unlisted.invariant : Invariant runtime orderly final
      (fun msg => ∃ index, Refers s.shelf (.partition (project, name) index) msg) (fun _ => 0)
      (fun _ => False) := by
  obtain ⟨_, _, _, rfl⟩ := unlisted.eq
  have declared : Declared (s.topics.erase (project, name)) s.queues :=
    ⟨fun present => settled.declared.topic (erase_eq_some.mp present).2, settled.declared.queue⟩
  refine (settled.withdraw _ unlisted.withdrawn rfl rfl (fun _ present =>
    present) declared settled.bound
    (unlisted.grouped settled) (unlisted.leased settled)).weaken ?_ fun _ outlived => outlived
  rintro msg (floats | ⟨slot, leaves, referred⟩)
  · exact floats.elim
  · cases slot with
    | queue other => cases leaves
    | partition other index => exact ⟨index, of_decide_eq_true leaves ▸ referred⟩

theorem Unlisted.advances : Advances project nobody s final := by
  obtain ⟨_, _, _, rfl⟩ := unlisted.eq
  refine ⟨{ Isolated.refl project s with
    topics := fun apart => getElem?_erase_apart Prod.fst apart
    groups := fun apart => (unlisted.groups _).trans (if_neg apart)
    shelf := ?_ }, Nat.le_refl _, ?_, fun present => .inr ⟨_, present, rfl, rfl, rfl⟩⟩
  · intro slot apart
    refine (unlisted.shelf settled slot).trans ?_
    cases slot with
    | queue other => rfl
    | partition other index =>
      have elsewhere : other ≠ (project, name) := by
        rintro rfl
        exact apart rfl
      simp [partitionOf, elsewhere]
  · intro id after present
    rw [unlisted.streams] at present
    split at present
    · cases present
    · exact ⟨after, .inl present, .refl after⟩

end

end Unlisted

theorem deleteTopic_meets (settled : Settled runtime orderly s)
    (valid : s.validateCommand (.deleteTopic project name) = .ok ()) :
    Meets (s.deleteTopic project name) (Keeps runtime orderly project s) fail := by
  rw [validateCommand, require_eq_ok, contains_iff_exists] at valid
  obtain ⟨topic, declared⟩ := valid
  unfold deleteTopic
  apply Meets.passed (orElse_eq_ok.mpr declared)
  dsimp only
  obtain ⟨restreamed, streams⟩ :=
    removeStreams_streams (s := s.removeTopic (project, name)) topic.partitions
  generalize topic.partitions.foldl removeStream (s.removeTopic (project, name)) = bare
    at restreamed streams ⊢
  obtain ⟨regrouped, groups⟩ := forgetTopics_groups (s := bare) name
    (show (bare.projectGroups project).Nodup from ExtTreeMap.nodup_keys.filter _)
  generalize (bare.projectGroups project).foldl (forgetTopic name) bare = final
    at regrouped groups ⊢
  have unlisted : Unlisted project name topic s final := by
    unfold Regrouped at regrouped
    unfold Restreamed at restreamed
    refine ⟨declared, ?_, ?_, ?_⟩
    · rw [regrouped, restreamed]
      rfl
    · rw [regrouped]
      exact streams
    · intro other
      have same : bare.groups = s.groups := by rw [restreamed]; rfl
      rw [groups other, same]
      simp only [projectGroups, List.mem_filter, ExtTreeMap.mem_keys, same, beq_iff_eq]
      cases found : s.groups[other]? with
      | none => simp
      | some group =>
        have known : other ∈ s.groups := by
          rw [ExtTreeMap.mem_iff_isSome_getElem?, found]
          rfl
        simp [known]
  have removed : ∀ msg, msg ∈ (ExtTreeSet.ofList
      ((s.removeTopic (project, name)).streamMessages topic.partitions) : ExtTreeSet MessageId) ↔
        ∃ index, Refers s.shelf (.partition (project, name) index) msg := by
    intro msg
    rw [ExtTreeSet.mem_ofList, List.contains_iff_mem, mem_streamMessages]
    constructor
    · rintro ⟨id, mem, stream, has, inside⟩
      obtain ⟨index, found⟩ := List.mem_iff_getElem?.mp mem
      exact ⟨index, stream, shelfOf_eq_some.mpr ⟨id, (unlisted.located index).trans found, has⟩, inside⟩
    · rintro ⟨index, stream, standing, inside⟩
      obtain ⟨id, here, has⟩ := shelfOf_eq_some.mp standing
      exact ⟨id, List.mem_of_getElem? ((unlisted.located index).symm.trans here), stream, has, inside⟩
  apply Meets.bind (reclaimPayloadCandidates_meets ((unlisted.invariant settled).weaken
    (fun msg => (removed msg).mpr) fun _ outlived => outlived) ?_)
  · rintro last ⟨_, reclaimed, settledLast⟩
    exact ⟨settledLast, (unlisted.advances settled).trans reclaimed⟩
  · intro msg mem
    obtain ⟨index, referred⟩ := (removed msg).mp mem
    rw [show final.ledger = s.ledger by rw [unlisted.frame]; rfl]
    exact settled.accounts.backed referred

end Withdraw

section Consumers

variable {orderly : Prop}

structure Reconsumed (project : ProjectId) (s s' : BrokerStateMachine) : Prop where
  frame : s' = { s with queueConsumers := s'.queueConsumers, capture := s'.capture }
  consumers : ∀ {name : Name}, name.1 ≠ project → s'.queueConsumers[name]? = s.queueConsumers[name]?

theorem Reconsumed.refl (project : ProjectId) (s : BrokerStateMachine) : Reconsumed project s s :=
  ⟨rfl, fun _ => rfl⟩

theorem Reconsumed.trans {s'' : BrokerStateMachine} (first : Reconsumed project s s')
    (second : Reconsumed project s' s'') :
    Reconsumed project s s'' :=
  ⟨by rw [second.frame, first.frame], fun apart =>
    (second.consumers apart).trans (first.consumers apart)⟩

theorem Reconsumed.meets (reconsumed : Reconsumed project s s') (settled : Settled runtime orderly s) :
    Settled runtime orderly s' ∧ Advances project nobody s s' := by
  obtain ⟨frame, consumers⟩ := reconsumed
  constructor
  · rw [frame]
    exact { settled with }
  · refine ⟨⟨?_, ?_, ?_, ?_, ?_, ?_, consumers, ?_, ?_⟩, .of_same ?_ ?_ ?_⟩
    all_goals intros; rw [frame]
    · rfl
    · rfl

section

variable (s : BrokerStateMachine) (project : ProjectId) (queue : String)

theorem commitConsumers_reconsumed (rows : ExtTreeSet (Uuid × Nat)) (changes : List Event) :
    Reconsumed project s (s.commitConsumers (project, queue) rows changes) :=
  ⟨rfl, fun apart => getElem?_insert_apart Prod.fst apart⟩

theorem removeConsumers_reconsumed : Reconsumed project s (s.removeConsumers (project, queue)) :=
  ⟨rfl, fun apart => getElem?_erase_apart Prod.fst apart⟩

theorem removeConsumer_reconsumed (owner : Uuid)
    (consumer : Nat) : Reconsumed project s (s.removeConsumer (project, queue) owner consumer).1 := by
  unfold removeConsumer
  split
  · exact .refl project s
  · dsimp only
    split
    · exact (commitConsumers_reconsumed ..).trans (removeConsumers_reconsumed ..)
    · exact commitConsumers_reconsumed ..

theorem releaseConsumers_reconsumed (project : ProjectId) (owner : Uuid)
    (progress : BrokerStateMachine × ExtTreeSet String) (queue : String) :
    Reconsumed project progress.1 (releaseConsumers project owner progress queue).1 := by
  obtain ⟨s, collect⟩ := progress
  unfold releaseConsumers
  dsimp only
  split
  · exact .refl project s
  · split
    · have removed := removeConsumers_reconsumed s project queue
      exact ⟨rfl, removed.consumers⟩
    · exact commitConsumers_reconsumed ..

end

variable (settled : Settled runtime orderly s)

include settled

theorem registerConsumer_meets {owner : Uuid} {consumer : Nat}
    (valid : s.validateCommand (.registerConsumer project queue owner consumer) = .ok ()) :
    Meets (s.registerConsumer project queue owner consumer) (Keeps runtime orderly project s) fail := by
  obtain ⟨declared, found, permitted⟩ := bind_eq_ok.mp valid
  apply Meets.passed found
  apply Meets.passed permitted
  exact (commitConsumers_reconsumed s project queue _ _).meets settled

theorem unregisterConsumer_meets (queue : String) (owner : Uuid) (consumer : Nat) :
    Meets (s.unregisterConsumer project queue owner consumer)
      (Keeps runtime orderly project s) fail := by
  have reconsumed := removeConsumer_reconsumed s project queue owner consumer
  unfold unregisterConsumer
  generalize s.removeConsumer (project, queue) owner consumer = outcome at reconsumed ⊢
  obtain ⟨middle, emptied⟩ := outcome
  obtain ⟨after, advances⟩ := reconsumed.meets settled
  dsimp only
  split
  · apply Meets.bind (dropQueue_meets after project queue)
    rintro final ⟨last, dropped⟩
    exact ⟨last, advances.trans dropped⟩
  · exact ⟨after, advances⟩

theorem releaseConnection_meets (project : ProjectId) (owner : Uuid) :
    Meets (s.releaseConnection project owner) (Keeps runtime orderly project s) fail := by
  have reconsumed : ∀ (queues : List String) (progress : BrokerStateMachine × ExtTreeSet String),
      Reconsumed project progress.1
        (queues.foldl (releaseConsumers project owner) progress).1 := by
    intro queues
    induction queues with
    | nil => exact fun progress => .refl project progress.1
    | cons queue rest ih =>
      intro progress
      exact (releaseConsumers_reconsumed project owner progress queue).trans (ih _)
  have released := reconsumed (s.consumedQueues project owner) (s, ∅)
  unfold releaseConnection
  generalize (s.consumedQueues project owner).foldl (releaseConsumers project owner) (s, ∅) =
    outcome at released ⊢
  obtain ⟨middle, collect⟩ := outcome
  obtain ⟨after, advances⟩ := released.meets settled
  dsimp only
  apply Meets.bind (Meets.foldlM (fun _ state => Settled runtime orderly state ∧
    Advances project nobody s state)
    _ ⟨after, advances⟩ ?_)
  · exact fun _ held => held
  · rintro queue _ state ⟨settledState, reached⟩
    refine Meets.imp (dropQueue_meets settledState project queue) ?_
    rintro final ⟨last, dropped⟩
    exact ⟨last, reached.trans dropped⟩

end Consumers

section Bindings

variable {exchange routingKey : String} {ifUnused : Bool} {orderly : Prop}
  (settled : Settled runtime orderly s)

include settled

theorem bindQueue_meets (valid : s.validateCommand (.bindQueue project exchange queue routingKey) =
    .ok ()) : Meets (s.bindQueue project exchange queue routingKey)
      (Keeps runtime orderly project s) fail := by
  obtain ⟨_, named, endpoints⟩ := bind_eq_ok.mp valid
  unfold bindQueue
  apply Meets.passed named
  apply Meets.passed endpoints
  rw [require_eq_ok, Bool.and_eq_true, ExtTreeMap.contains_iff_mem,
    ExtTreeMap.contains_iff_mem] at endpoints
  dsimp only
  cases s.bindings.toList.any fun entry => entry.1.1 == project && entry.1.2.1 == exchange &&
      entry.2.queue == queue && entry.2.routingKey == routingKey with
  | true => exact ⟨settled, .refl project s⟩
  | false =>
    refine ⟨{ settled with bound := ?_ }, { Isolated.refl project s with bindings := ?_ },
      .of_same rfl rfl rfl⟩
    · intro key binding listed
      change (s.bindings.insert _ _)[key]? = _ at listed
      rcases insert_eq_some.mp listed with ⟨rfl, rfl⟩ | ⟨_, listed⟩
      · exact ⟨rfl, endpoints⟩
      · exact settled.bound key binding listed
    · exact fun apart => getElem?_insert_apart Prod.fst apart

theorem retainBindings_meets (project : ProjectId) (keep : BindingKey → Binding → Bool)
    (foreign : ∀ {key : BindingKey} {binding : Binding}, key.1 ≠ project → keep key binding = true) :
    Settled runtime orderly (s.retainBindings keep) ∧
    Advances project nobody s (s.retainBindings keep) := by
  refine ⟨{ settled with bound := ?_ }, { Isolated.refl project s with bindings := ?_ },
    .of_same rfl rfl rfl⟩
  · intro key binding listed
    change (s.bindings.filter keep)[key]? = _ at listed
    rw [ExtTreeMap.getElem?_filter', Option.filter_eq_some_iff] at listed
    exact settled.bound key binding listed.1
  · intro key apart
    exact getElem?_filter_kept fun _ => foreign apart

theorem unbindQueue_meets
    (valid : s.validateCommand (.unbindQueue project exchange queue routingKey) = .ok ()) :
    Meets (s.unbindQueue project exchange queue routingKey) (Keeps runtime orderly project s) fail := by
  obtain ⟨_, named, bound⟩ := bind_eq_ok.mp valid
  apply Meets.passed named
  apply Meets.passed bound
  exact retainBindings_meets settled project _ fun apart => by simp [apart]

theorem deleteExchange_meets
    (valid : s.validateCommand (.deleteExchange project name ifUnused) = .ok ()) :
    Meets (s.deleteExchange project name ifUnused) (Keeps runtime orderly project s) fail := by
  obtain ⟨_, declared, unused⟩ := bind_eq_ok.mp valid
  apply Meets.passed declared
  apply Meets.passed unused
  have retained := retainBindings_meets settled project
    (fun key binding => !(key.1 == project && binding.exchange == name)) fun apart => by simp [apart]
  refine ⟨{ retained.1 with bound := ?_ }, { retained.2.isolated with exchanges := ?_ },
    .of_same rfl rfl rfl⟩
  · intro key binding listed
    obtain ⟨fields, exchange, queue⟩ := retained.1.bound key binding listed
    change (s.bindings.filter _)[key]? = _ at listed
    rw [ExtTreeMap.getElem?_filter', Option.filter_eq_some_iff] at listed
    refine ⟨fields, ?_, queue⟩
    change (key.1, binding.exchange) ∈ s.exchanges.erase (project, name)
    rw [ExtTreeMap.mem_erase, ne_eq, LawfulEqCmp.compare_eq_iff_eq]
    refine ⟨?_, exchange⟩
    intro same
    rw [Prod.mk.injEq] at same
    simp [← same.1, ← same.2] at listed
  · exact fun apart => getElem?_erase_apart Prod.fst apart

theorem purgeQueue_meets (valid : s.validateCommand (.purgeQueue project name) = .ok ()) :
    Meets (s.purgeQueue project name) (Keeps runtime orderly project s) fail := by
  rw [validateCommand, require_eq_ok, contains_iff_exists] at valid
  obtain ⟨queue, declared⟩ := valid
  apply Meets.passed (orElse_eq_ok.mpr declared)
  exact discardReadyRecords_settled settled (show slotStream s.topics s.queues
    (.queue (project, name)) = some queue.stream by simp [slotStream, declared])

theorem deleteQueue_meets {ifEmpty : Bool} {runtime' : Runtime}
    (valid : s.validateCommand (.deleteQueue project name ifUnused ifEmpty) = .ok ()) :
    Meets (dispatch runtime' s (.deleteQueue project name ifUnused ifEmpty))
      (Keeps runtime orderly project s) fail := by
  obtain ⟨ready, counted, _⟩ := bind_eq_ok.mp valid
  apply Meets.passed counted
  apply Meets.bind (dropQueue_meets settled project name)
  exact fun _ dropped => dropped

end Bindings

end IronGraph.Broker
