import IronGraph.Broker.LoneStore
import IronGraph.Broker.Run

/-!
What stays true from one state of the broker to any later one: offsets are permanent, projects do
not touch one another and go without a trace, and batches add up.
-/

namespace IronGraph.Broker

open Std Outcome OrderedMap BrokerStateMachine Option

section History

variable {runtime : Runtime} {s s' : BrokerStateMachine}

theorem Evolves.follows {orderly : Prop} {hands : StreamId → Uuid → Nat → Prop}
    (settled : Settled runtime orderly s)
    (evolves : Evolves hands s s') {id : StreamId} {before after : StreamState}
    (has : s.streams[id]? = some before) (still : s'.streams[id]? = some after) :
    Follows (hands id) before after := by
  obtain ⟨origin, known | ⟨beyond, _⟩, follows⟩ := evolves.streams still
  · rw [has, some.injEq] at known
    exact known ▸ follows
  · exact absurd (settled.owned.numbered has) (Nat.not_le.mpr beyond)

/-- Over any run, a stream that is still there has moved forward only, and an offset that was given
to a message belongs to that message for good. -/
theorem offsets_permanent (lawful : Lawful runtime) (reachable : Reachable runtime s)
    {actions : List Action}
    (ran : run runtime s actions = .ok s') {id : StreamId} {before after : StreamState}
    (present : s.streams[id]? = some before) (still : s'.streams[id]? = some after) :
    before.baseOffset ≤ after.baseOffset ∧ before.nextOffset ≤ after.nextOffset ∧
      (∀ earlier ∈ before.records.items, ∀ later ∈ after.records.items,
        earlier.offset = later.offset → earlier.message = later.message) ∧
      ∀ later ∈ after.records.items, later.offset < before.nextOffset →
        ∃ earlier ∈ before.records.items, earlier.offset = later.offset ∧
        earlier.message = later.message := by
  have settled := reachable.settled lawful
  have follows := (run_evolves lawful settled ran).follows settled present still
  obtain ⟨slot, located⟩ := settled.owned.slotted present
  have well : StreamWell before := settled.logs (shelfOf_eq_some.mpr ⟨id, located, present⟩)
  refine ⟨follows.base, follows.next, ?_, fun later member => follows.carried member⟩
  intro earlier inside later member same
  have given : later.offset < before.nextOffset := same ▸ (well.position inside).2.1
  obtain ⟨origin, among, offset, message⟩ := follows.carried member given
  rw [well.offset_injective inside among (same.trans offset.symm)]
  exact message

def publishActions : List Action := [.command (declareQueue 1 "q" none), .command (publishSeven 1 "q")]

def consumeActions : List Action := [ .command (.deliverQueue 1 "q" .first 1 5 1 false 11)
  , .command (.ack 1 "q" 5 1 1 false)
  , .command (publishSeven 1 "q") ]

theorem offsets_permanent_consumed :
    ∃ s s' before after, run sevenStore .empty publishActions = .ok s ∧
      run sevenStore s consumeActions = .ok s' ∧ s.streams[1]? = some before ∧
      s'.streams[1]? = some after ∧ before.nextOffset ≤ after.nextOffset ∧
      ∀ later ∈ after.records.items, later.offset < before.nextOffset →
        ∃ earlier ∈ before.records.items, earlier.offset = later.offset ∧
        earlier.message = later.message := by
  let s := reached sevenStore .empty publishActions
  have published : run sevenStore .empty publishActions = .ok s := run_reached _ _ _ (by decide +kernel)
  have consumed : run sevenStore s consumeActions = .ok (reached sevenStore s consumeActions) :=
    run_reached _ _ _ (by decide +kernel)
  have present : s.streams[1]?.isSome = true := by decide +kernel
  have still : (reached sevenStore s consumeActions).streams[1]?.isSome = true := by decide +kernel
  obtain ⟨before, present⟩ := isSome_iff_exists.mp present
  obtain ⟨after, still⟩ := isSome_iff_exists.mp still
  have permanent := offsets_permanent (loneStore_lawful _) ⟨_, published⟩ consumed present still
  exact ⟨_, _, before, after, published, consumed, present, still, permanent.2.1, permanent.2.2.2⟩

/-- Retain expires the silent members and the leases that are due and then takes, off every log of
the project, the longest prefix that its policy lets go; of the payloads it drops exactly those that
nothing refers to any more. -/
theorem retain_trims (lawful : Lawful runtime) (reachable : Reachable runtime s) (project : ProjectId)
    (resolvedTimeMs : Int) : Meets (s.retainProject project resolvedTimeMs)
      (fun retained => ∃ expired, s.expireGroupMembers project resolvedTimeMs = .ok expired ∧
        let due := expired.expireDeliveryLeases project resolvedTimeMs
        Retains due retained.1 project resolvedTimeMs ∧ ∀ message ∈ due.payloads,
          message ∈ retained.1.payloads ↔ ∃ slot, Refers retained.1.shelf slot message)
      (fun error => error = generationExhausted ∧
        ¬ GenerationRoom s (.retain project resolvedTimeMs)) := by
  refine (retainProject_meets (reachable.settled lawful) project resolvedTimeMs).imp ?_
  rintro retained ⟨_, kept, expired, expires, retains⟩
  refine ⟨expired, expires, retains, fun message _ => ⟨fun stored => ?_, ?_⟩⟩
  · obtain ⟨payload, found⟩ := mem_iff_exists.mp stored
    exact (kept.1.accounts.covered found).resolve_left id
  · rintro ⟨slot, refers⟩
    obtain ⟨_, billed⟩ := kept.1.accounts.backed refers
    obtain ⟨payload, _, found, _⟩ := Ledger.billed_eq_some.mp billed
    exact mem_iff_exists.mpr ⟨payload, found⟩

theorem retain_trims_acknowledged : ∃ s retained expired, Reachable sevenStore s ∧
    s.retainProject 1 20 = .ok retained ∧
    Retains (expireDeliveryLeases expired 1 20) retained.1 1 20 := by
  have ran := run_reached sevenStore .empty (publishActions ++ consumeActions) (by decide +kernel)
  have passes : ((reached sevenStore .empty (publishActions ++
      consumeActions)).retainProject 1 20).isOk = true := by
    decide +kernel
  obtain ⟨retained, outcome⟩ := exists_ok passes
  obtain ⟨expired, _, retains, _⟩ := (retain_trims (loneStore_lawful _) ⟨_, ran⟩ 1 20).ok_post outcome
  exact ⟨_, retained, expired, ⟨_, ran⟩, outcome, retains⟩

/-- A command of a project, or the removal of the project, leaves every row, record and payload of
every other project as it was. The removal is what `dropProject` does before it checks the state. -/
theorem projects_isolated (lawful : Lawful runtime) (reachable : Reachable runtime s) :
    (∀ {command : BrokerCommand} {reply : BrokerReply},
      apply runtime s command = .ok (s', reply) → Isolated command.project s s') ∧
    (∀ {project : ProjectId}, s.removeProject project = .ok s' → Isolated project s s') ∧
    ∀ {project : ProjectId}, s.dropProject project = .ok s' → Isolated project s s' := by
  have settled := reachable.settled lawful
  have removal : ∀ {project : ProjectId}, s.removeProject project = .ok s' → Isolated project s s' :=
    fun removed => (removeProject_advances settled removed).2.isolated
  refine ⟨?_, removal, fun dropped => removal (dropProject_removed dropped)⟩
  intro command reply applied
  exact (apply_stepped lawful settled False.elim applied).advances.isolated

def neighbourActions : List Action :=
  [.command (declareQueue 1 "q" none), .command (declareQueue 2 "q" none),
    .command (publishSeven 2 "q")]

theorem projects_isolated_neighbours :
    ∃ s s', Reachable sevenStore s ∧ (2, "q") ∈ s.queues ∧ s.removeProject 1 = .ok s' ∧
    Isolated 1 s s' := by
  have ran := run_reached sevenStore .empty neighbourActions (by decide +kernel)
  have removable : ((reached sevenStore .empty neighbourActions).removeProject 1).isOk = true := by
    decide +kernel
  cases removed : (reached sevenStore .empty neighbourActions).removeProject 1 with
  | error error =>
    rw [removed] at removable
    cases removable
  | ok s' =>
    exact ⟨_, s', ⟨_, ran⟩, ExtTreeMap.contains_iff_mem.mp (by decide +kernel), removed,
      (projects_isolated (loneStore_lawful _) ⟨_, ran⟩).2.1 removed⟩

def Vacant (s : BrokerStateMachine) (project : ProjectId) : Prop :=
  (∀ name : Name, name.1 = project → s.topics[name]? = none ∧ s.queues[name]? = none ∧
    s.exchanges[name]? = none ∧ s.groups[name]? = none ∧ s.queueConsumers[name]? = none) ∧
    (∀ key : BindingKey, key.1 = project → s.bindings[key]? = none) ∧
    (∀ key : ProjectId × Uuid, key.1 = project → s.deliveryLeases[key]? = none) ∧
    ∀ message bytes, s.ledger.billed message ≠ some (project, bytes)

theorem removePayloads_frame {messages : List MessageId} {bare : BrokerStateMachine}
    (removed : messages.foldlM removePayload bare = .ok s') : Reledgered bare s' := by
  induction messages generalizing bare with
  | nil => exact Except.ok.inj removed ▸ rfl
  | cons message rest ih =>
    rw [List.foldlM_cons] at removed
    obtain ⟨middle, first, later⟩ := bind_eq_ok.mp removed
    refine Reledgered.trans ?_ (ih later)
    unfold removePayload at first
    split at first
    · exact Except.ok.inj first ▸ rfl
    · obtain ⟨_, _, first⟩ := bind_eq_ok.mp first
      obtain ⟨_, _, first⟩ := bind_eq_ok.mp first
      obtain rfl := Except.ok.inj first
      split <;> rfl

/-- The removal of a project never fails, takes the streams of the project and leaves nothing that
belongs to it. -/
theorem project_removal_complete (lawful : Lawful runtime) (reachable : Reachable runtime s)
    (project : ProjectId) :
    ∃ s', s.removeProject project = .ok s' ∧ Vacant s' project ∧
    ∀ id ∈ s.projectStreams project, id ∉ s'.streams := by
  have settled := reachable.settled lawful
  obtain ⟨bare, evicted, removal⟩ := removeProject_evicted s project
  have sure : Meets (s.removeProject project) _ fun _ => False := removeProject_meets settled project
  cases outcome : s.removeProject project with
  | error error => exact (sure.error_fail outcome).elim
  | ok s' =>
    have frame := removePayloads_frame (removal.symm.trans outcome)
    have after := (removeProject_advances settled outcome).1
    refine ⟨s', rfl, ⟨?_, ?_, ?_, ?_⟩, ?_⟩
    · intro name own
      rw [frame]
      simp [evicted.topics, evicted.queues, evicted.exchanges, evicted.groups, evicted.consumers, own]
    · intro key own
      rw [frame]
      exact (evicted.bindings key).trans (if_pos own)
    · intro key own
      rw [frame]
      exact (evicted.leases key).trans (if_pos own)
    · intro message bytes billed
      -- A payload has a reference, whose log would be one of the project.
      obtain ⟨payload, _, found, _⟩ := Ledger.billed_eq_some.mp billed
      obtain ⟨slot, refers⟩ := (after.accounts.covered found).resolve_left id
      obtain ⟨_, backed⟩ := after.accounts.backed refers
      obtain ⟨stream, standing, _⟩ := refers
      rw [billed, some.injEq, Prod.mk.injEq] at backed
      rw [frame] at standing
      exact ((evicted.shelf_eq_some settled).mp standing).1 backed.1.symm
    · intro id own
      rw [frame, ExtTreeMap.mem_iff_isSome_getElem?]
      simp [evicted.streams, own]

theorem project_removal_complete_two : ∃ s s', Reachable sevenStore s ∧ s.removeProject 2 = .ok s' ∧
    Vacant s' 2 := by
  have ran := run_reached sevenStore .empty neighbourActions (by decide +kernel)
  obtain ⟨s', removed, vacant, _⟩ := project_removal_complete (loneStore_lawful _) ⟨_, ran⟩ 2
  exact ⟨_, s', ⟨_, ran⟩, removed, vacant⟩

/-- When no counter overflows, an accepted command is applied exactly when the fetch it may be
selects no message twice and the group it may concern has generations left. -/
theorem accepted_applies_iff (lawful : Lawful runtime) (reachable : Reachable runtime s)
    {command : BrokerCommand} (accepted : s.validateCommand command = .ok ())
    (counted : ∀ error, apply runtime s command = .error error → ¬ Overflow error) :
    (∃ after, apply runtime s command = .ok after) ↔ RepeatFree s command ∧
    GenerationRoom s command := by
  have dispatched : apply runtime s command = dispatch runtime s command := by
    unfold apply
    rw [accepted]
    rfl
  rw [dispatched] at counted ⊢
  have meets := dispatch_meets lawful (reachable.settled lawful) False.elim accepted
  cases outcome : dispatch runtime s command with
  | ok after =>
    have stepped := meets.ok_post outcome
    exact ⟨fun _ => ⟨stepped.repeatFree, stepped.room⟩, fun _ => ⟨after, rfl⟩⟩
  | error error =>
    refine ⟨fun ⟨_, applied⟩ => absurd applied nofun, ?_⟩
    rintro ⟨free, room⟩
    rcases meets.error_fail outcome with overflow | ⟨_, repeated⟩ | ⟨_, exhausted⟩
    · exact absurd overflow (counted error outcome)
    · exact absurd free repeated
    · exact absurd room exhausted

theorem accepted_applies_iff_fetched : ∃ s after, Reachable sevenStore s ∧
      apply sevenStore s (.deliverQueue 1 "q" .first 1 5 1 false 11) = .ok after ∧
      RepeatFree s (.deliverQueue 1 "q" .first 1 5 1 false 11) := by
  have ran := run_reached sevenStore .empty publishActions (by decide +kernel)
  have fetches : (apply sevenStore (reached sevenStore .empty publishActions)
    (.deliverQueue 1 "q" .first 1 5 1 false 11)).isOk = true := by decide +kernel
  obtain ⟨after, outcome⟩ := exists_ok fetches
  have applies := accepted_applies_iff (loneStore_lawful _) ⟨_, ran⟩ (apply_eq_ok.mp outcome).1
    fun error failed => absurd (outcome.symm.trans failed) nofun
  exact ⟨_, after, ⟨_, ran⟩, outcome, (applies.mp ⟨after, outcome⟩).1⟩

def deadTwiceActions : List Action := [ .command (.createExchange 1 "fan" .fanout true false)
  , .command (declareQueue 1 "d" none)
  , .command (.createQueue 1 "a" .classic true false (some "") (some "d")
    { maxAgeMs := none, maxBytes := none } none false)
  , .command (.createQueue 1 "b" .classic true false (some "") (some "d")
    { maxAgeMs := none, maxBytes := none } none false)
  , .command (.bindQueue 1 "fan" "a" "")
  , .command (.bindQueue 1 "fan" "b" "")
  , .command (.publishAmqp 1 "fan" "" false 10 ∅ ∅ [7])
  , .command (.deliverQueue 1 "a" .first 1 5 1 false 11)
  , .command (.deliverQueue 1 "b" .first 1 5 1 false 12)
  , .command (.nack 1 "a" 5 1 1 false false)
  , .command (.nack 1 "b" 5 1 1 false false) ]

theorem accepted_fetch_fails : ∃ s, Reachable sevenStore s ∧
      (s.validateCommand (.deliverQueue 1 "d" .first 2 5 1 false 13)).isOk = true ∧
      (apply sevenStore s (.deliverQueue 1 "d" .first 2 5 1 false 13)).isOk = false := by
  refine ⟨_, ⟨deadTwiceActions, run_reached _ _ _ ?_⟩, ?_, ?_⟩
  all_goals decide +kernel

/-- Batches that are published one after another append what one batch of all their records does,
and each record can be read with the time of its batch. -/
theorem kafka_batches_published {project : ProjectId} {topic : String} {part : Int} {id : StreamId}
    (lawful : Lawful runtime) (reachable : Reachable runtime s)
    (located : s.partitionStream project topic part = .ok id)
    (batches : List (Int × List KafkaBatchRecord)) (ran : run runtime s (batches.map fun batch =>
      .command (.publishKafkaBatch project topic part batch.1 batch.2)) = .ok s') :
    let pending := pendingOf s.nextMessageId ((batches.flatMap (·.2)).map KafkaBatchRecord.entry)
    Logged project s s' pending.length (kafkaDrafts id pending) ∧
      ∀ before timestampMs records after, batches = before ++ (timestampMs, records) :: after →
        ∀ record ∈ pendingOf (s.nextMessageId + (before.flatMap (·.2)).length)
            (records.map KafkaBatchRecord.entry),
          Reads runtime s' record.id (segmentRecord runtime project timestampMs record) := by
  have settled := reachable.settled lawful
  clear reachable
  induction batches generalizing s with
  | nil =>
    obtain rfl := Except.ok.inj ran
    refine ⟨?_, fun before _ _ _ whole => absurd whole.symm (by simp)⟩
    have nothing : kafkaDrafts id [] = fun _ => [] := by
      funext other
      simp [kafkaDrafts]
    have opened : Published runtime project 0 s s [] fun _ => [] :=
      .opened (show Reledgered s s from rfl) (.refl ..) rfl fun _ _ known => known
    exact nothing ▸ opened.toLogged
  | cons batch rest ih =>
    obtain ⟨timestampMs, records⟩ := batch
    obtain ⟨middle, stepped, later⟩ := run_cons.mp ran
    obtain ⟨⟨after, reply⟩, applied, same⟩ := bind_eq_ok.mp stepped
    obtain rfl := Except.ok.inj same
    obtain ⟨valid, dispatched⟩ := apply_eq_ok.mp applied
    obtain ⟨target, aimed, _, settled', first⟩ :=
      (publishKafkaBatch_meets lawful settled valid).ok_post dispatched
    obtain rfl := Except.ok.inj (aimed.symm.trans located)
    have stays : after.partitionStream project topic part = .ok target := by
      rw [show Relogged s after from first.frame]
      exact located
    have cursor : after.nextMessageId = s.nextMessageId + records.length := by
      rw [show after.nextMessageId = _ from first.cursor, length_pendingOf, List.length_map]
    obtain ⟨logged, reads⟩ := ih stays later settled'
    refine ⟨?_, ?_⟩
    · have split : pendingOf s.nextMessageId ((((timestampMs,
          records) :: rest).flatMap (·.2)).map KafkaBatchRecord.entry) =
          pendingOf s.nextMessageId (records.map KafkaBatchRecord.entry) ++
            pendingOf after.nextMessageId ((rest.flatMap (·.2)).map KafkaBatchRecord.entry) := by
        rw [cursor, List.flatMap_cons, List.map_append, pendingOf, List.mapIdx_append]
        simp only [pendingOf, List.length_map, Nat.add_assoc, Nat.add_left_comm, Nat.add_comm]
      have both := first.toLogged.trans logged
      rw [← List.length_append, ← split] at both
      convert both using 2 with other
      rw [split]
      by_cases here : other = target <;> simp [kafkaDrafts, here]
    · rintro (_ | ⟨head, before⟩) time recs tail whole record mem
      · obtain ⟨⟨rfl, rfl⟩, rfl⟩ := whole
        exact (first.reads record mem).lasts logged.lasts
      · obtain ⟨rfl, others⟩ := List.cons.inj whole
        refine reads before time recs tail others record ?_
        rw [cursor, Nat.add_assoc, ← List.length_append]
        exact mem

def sevens : List KafkaBatchRecord := [⟨some 3, none, ∅, [7], false⟩]

theorem kafka_batches_published_twice : ∃ runtime s s' pending record, Reachable runtime s ∧
    pending.length = 2 ∧ Logged 1 s s' 2 (kafkaDrafts 1 pending) ∧
    Reads runtime s' record.id (segmentRecord runtime 1 20 record) := by
  let runtime := loneStore [{ kind := brokerRawKafkaPayloadSegmentKind, payload := [7] }]
  let declare : List Action := [.command (.createTopic 1 "t" 1 ⟨none, none⟩)]
  have ran := run_reached runtime .empty declare (by decide +kernel)
  have published := run_reached runtime (reached runtime .empty declare) ([(10, sevens),
    (20, sevens)].map fun batch =>
    .command (.publishKafkaBatch 1 "t" 0 batch.1 batch.2)) (by decide +kernel)
  obtain ⟨logged, reads⟩ := @kafka_batches_published _ _ _ _ _ _ 1 (loneStore_lawful _) ⟨_,
    ran⟩ (by decide +kernel) _ published
  exact ⟨_, _, _, _, _, ⟨_, ran⟩, rfl, logged, reads [(10, sevens)] 20 sevens [] rfl _ (.head _)⟩

end History

end IronGraph.Broker
