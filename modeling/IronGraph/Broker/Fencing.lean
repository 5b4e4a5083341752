import IronGraph.Broker.History

/-!
Who holds which record of a classic queue. A record has one holder, only a delivery of a ready
record makes one, and a settlement is accepted from the holder alone, so that whoever has lost a
record cannot settle it any more.
-/

namespace IronGraph.Broker

open Std Outcome OrderedMap BrokerStateMachine List Except Prod

section

variable (s : BrokerStateMachine) (name : Name)

def RecordAt (offset : Nat) (reference : StreamReference) : Prop :=
  ∃ queue stream, s.queues[name]? = some queue ∧ s.streams[queue.stream]? = some stream ∧
    reference ∈ stream.records.items ∧ reference.offset = offset

def ReadyAt (offset : Nat) : Prop := ∃ reference, RecordAt s name offset reference ∧
    reference.delivery = .ready

def Holding (owner : Uuid) (consumer offset : Nat) : Prop :=
  ∃ reference tag, RecordAt s name offset reference ∧ reference.delivery = .unacked owner consumer tag

end

inductive Settlement (name : Name) (owner : Uuid) (consumer deliveryTag : Nat) (multiple : Bool) :
    BrokerCommand → Prop
  | ack : Settlement name owner consumer deliveryTag multiple
      (.ack name.1 name.2 owner consumer deliveryTag multiple)
  | nack (requeue : Bool) : Settlement name owner consumer deliveryTag multiple
      (.nack name.1 name.2 owner consumer deliveryTag multiple requeue)

def Covers (deliveryTag : Nat) (multiple : Bool) (offset : Nat) : Prop :=
  bif multiple then offset + 1 ≤ deliveryTag else offset + 1 = deliveryTag

inductive Delivers (name : Name) (owner : Uuid) (consumer : Nat) : BrokerCommand → Prop
  | deliverQueue (offset : StreamOffset) (maximum : Nat) (resolvedTimeMs : Int) :
      Delivers name owner consumer
      (.deliverQueue name.1 name.2 offset maximum owner consumer false resolvedTimeMs)

variable {offset consumer : Nat} {owner : Uuid} {project : ProjectId} {queue : String}
  {reply : BrokerReply}

section Holders

variable {orderly : Prop} {s s' : BrokerStateMachine} {name : Name} {runtime : Runtime}
  {stream : StreamState} {hands : StreamId → Uuid → Nat → Prop} {command : BrokerCommand}
  {deliveryTag : Nat} {multiple : Bool} (settled : Settled runtime orderly s)
include settled

theorem RecordAt.well {queue : Queue} (declared : s.queues[name]? = some queue)
    (has : s.streams[queue.stream]? = some stream) : StreamWell stream :=
  have located : slotStream s.topics s.queues (.queue name) = some queue.stream := by
    simp [slotStream, declared]
  settled.logs (shelfOf_eq_some.mpr ⟨queue.stream, located, has⟩)

theorem RecordAt.unique {first second : StreamReference}
    (one : RecordAt s name offset first) (other : RecordAt s name offset second) : first = second := by
  obtain ⟨queue, stream, declared, has, mem, numbered⟩ := one
  obtain ⟨again, same, redeclared, standing, inside, equal⟩ := other
  rw [declared, Option.some.injEq] at redeclared
  subst redeclared
  rw [has, Option.some.injEq] at standing
  subst standing
  exact (RecordAt.well settled declared has).offset_injective mem inside (numbered.trans equal.symm)

theorem Holding.unique {owner' : Uuid} {consumer' : Nat}
    (one : Holding s name owner consumer offset) (other : Holding s name owner' consumer' offset) :
    owner = owner' ∧ consumer = consumer' := by
  obtain ⟨first, _, place, held⟩ := one
  obtain ⟨second, _, samePlace, alsoHeld⟩ := other
  rw [← place.unique settled samePlace, held, DeliveryState.unacked.injEq] at alsoHeld
  exact ⟨alsoHeld.1, alsoHeld.2.1⟩

theorem Evolves.queue_before (evolves : Evolves hands s s') {queue : Queue}
    (declared : s'.queues[name]? = some queue) (has : s.streams[queue.stream]? = some stream) :
    ∃ before, s.queues[name]? = some before ∧ before.stream = queue.stream ∧
      before.exclusiveOwner = queue.exclusiveOwner := by
  rcases evolves.queues declared with beyond | ⟨before, found, same, _, owner⟩
  · exact absurd (settled.owned.numbered has) (Nat.not_le.mpr beyond)
  · exact ⟨before, found, same, owner⟩

theorem Evolves.holding (evolves : Evolves hands s s') (held : Holding s' name owner consumer offset) :
    (∃ queue, s'.queues[name]? = some queue ∧ hands queue.stream owner consumer) ∨
      Holding s name owner consumer offset := by
  obtain ⟨ref, tag, ⟨queue, stream, declared, has, mem, numbered⟩, delivery⟩ := held
  obtain ⟨before, origin, follows⟩ := evolves.streams has
  rcases follows.held mem delivery with handed | ⟨prior, inside, same, heldBefore⟩
  · exact .inl ⟨queue, declared, handed⟩
  rcases origin with known | ⟨_, rfl⟩
  · obtain ⟨queueBefore, declaredBefore, sameStream, _⟩ := evolves.queue_before settled declared known
    exact .inr ⟨prior, tag, ⟨queueBefore, before, declaredBefore, sameStream ▸ known, inside,
      same.trans numbered⟩, heldBefore⟩
  · exact absurd inside not_mem_nil

omit settled

theorem Holding.holds (held : Holding s (project, queue) owner consumer offset) :
    Holds s.shelf project owner := by
  obtain ⟨ref, tag, ⟨record, stream, declared, has, mem, _⟩, delivery⟩ := held
  refine ⟨.queue (project, queue), stream, rfl, shelfOf_eq_some.mpr ⟨record.stream, ?_,
    has⟩, ref, mem, ?_⟩
  · simp [slotStream, declared]
  · exact ownedBy_eq_true.mpr ⟨consumer, tag, delivery⟩

variable (settled : Settled runtime orderly s)
include settled

theorem queue_name_unique {first second : Name} {queue other : Queue}
    (one : s.queues[first]? = some queue) (another : s.queues[second]? = some other)
    (same : queue.stream = other.stream) : first = second := by
  have located : slotStream s.topics s.queues (.queue first) = some other.stream := by
    simp [slotStream, one, same]
  have alsoLocated : slotStream s.topics s.queues (.queue second) = some other.stream := by
    simp [slotStream, another]
  exact Slot.queue.inj (settled.owned.injective located alsoLocated)

theorem fetched_holding {holder : Uuid} {holderConsumer : Nat} {pending : List PendingDelivery}
    {deliveries : List Delivery} {record : Queue}
    (declared : s.queues[(project, queue)]? = some record) {auto : Bool}
    (evolves : Evolves (handsTo record.stream holder holderConsumer) s s')
    (fetched : Fetched s record stream holder holderConsumer auto pending s' deliveries)
    (held : Holding s' name owner consumer offset) : Holding s name owner consumer offset ∨
      (name = (project, queue) ∧ owner = holder ∧ consumer = holderConsumer ∧ auto = false ∧
        ReadyAt s name offset) := by
  rcases evolves.holding settled held with ⟨final, declaredFinal, sameStream, rfl, rfl⟩ | before
  · obtain ⟨prior, declaredBefore, unchanged, _⟩ :=
      evolves.queue_before settled declaredFinal (sameStream ▸ fetched.found)
    obtain rfl := queue_name_unique settled declaredBefore declared (unchanged.trans sameStream)
    obtain ⟨ref, tag, ⟨again, after, redeclared, has, mem, numbered⟩, delivery⟩ := held
    rw [declaredFinal, Option.some.injEq] at redeclared
    subst redeclared
    cases kind : record.kind with
    | stream =>
      have still : s' = s := fetched.stream kind
      subst still
      exact .inl ⟨ref, tag, ⟨final, after, declaredFinal, has, mem, numbered⟩, delivery⟩
    | classic =>
      obtain ⟨rewritten, standing, rewrote⟩ := fetched.classic kind
      rw [sameStream, standing, Option.some.injEq] at has
      subst has
      rw [rewrote.items, mem_map] at mem
      obtain ⟨original, inside, rfl⟩ := mem
      have place : RecordAt s (project, queue) original.offset original :=
        ⟨record, stream, declared, fetched.found, inside, rfl⟩
      unfold rewriteAt at numbered delivery
      split at delivery
      next picked =>
        rw [if_pos picked] at numbered
        obtain ⟨chosen, among, sameOffset⟩ := mem_map.mp picked
        have well := RecordAt.well settled declared fetched.found
        have ready := fetched.picked.ready kind chosen among
        rw [well.offset_injective (fetched.picked.sublist.mem (mem_map_of_mem among))
          inside sameOffset] at ready
        cases auto with
        | true => cases delivery
        | false => exact .inr ⟨rfl, rfl, rfl, rfl, original, numbered ▸ place, ready⟩
      next untouched =>
        rw [if_neg untouched] at numbered
        exact .inl ⟨original, tag, numbered ▸ place, delivery⟩
  · exact .inl before

theorem apply_fetched {start : StreamOffset} {maximum : Nat} {auto : Bool} {now : Int}
    (applied : apply runtime s (.deliverQueue project queue start maximum owner consumer auto
      now) = .ok (s', reply)) :
    ∃ record stream pending deliveries, s.queues[(project, queue)]? = some record ∧
      reply = .deliveries deliveries ∧ Evolves (handsTo record.stream owner consumer) s s' ∧
      Fetched s record stream owner consumer auto pending s' deliveries := by
  obtain ⟨valid, dispatched⟩ := apply_eq_ok.mp applied
  obtain ⟨record, stream, declared, fetches⟩ := fetchQueue_meets settled valid
  obtain ⟨⟨after, deliveries⟩, fetch, same⟩ := bind_eq_ok.mp dispatched
  obtain ⟨rfl, rfl⟩ := mk.inj (ok.inj same)
  obtain ⟨_, advances, _, pending, fetched⟩ := fetches.ok_post fetch
  exact ⟨record, stream, pending, deliveries, declared, rfl, advances.evolves, fetched⟩

omit settled

theorem apply_holding (lawful : Lawful runtime) (settled : Settled runtime False s)
    (applied : apply runtime s command = .ok (s', reply))
    (held : Holding s' name owner consumer offset) :
    Holding s name owner consumer offset ∨ (Delivers name owner consumer command ∧
      ReadyAt s name offset) := by
  have evolves := (apply_stepped lawful settled False.elim applied).advances.evolves
  cases command with
  | deliverQueue project queue start maximum holder holderConsumer auto now =>
    obtain ⟨record, stream, pending, deliveries, declared, _, handing, fetched⟩ :=
      apply_fetched settled applied
    refine (fetched_holding settled declared handing fetched held).imp_right ?_
    rintro ⟨rfl, rfl, rfl, rfl, ready⟩
    exact ⟨.deliverQueue start maximum now, ready⟩
  | _ =>
    rcases evolves.holding settled held with ⟨_, _, handed⟩ | before
    · exact handed.elim
    · exact .inl before

theorem step_holding (lawful : Lawful runtime) (settled : Settled runtime False s) {action : Action}
    (stepped : action.step runtime s = .ok s') (held : Holding s' name owner consumer offset) :
    Holding s name owner consumer offset ∨ ∃ command, action = .command command ∧
    Delivers name owner consumer command := by
  cases action with
  | drop project =>
    rcases (step_advances lawful settled False.elim stepped).2.evolves.holding settled held
      with ⟨_, _, handed⟩ | before
    · exact handed.elim
    · exact .inl before
  | command command =>
    obtain ⟨⟨after, reply⟩, applied, same⟩ := bind_eq_ok.mp stepped
    obtain rfl := ok.inj same
    exact (apply_holding lawful settled applied held).imp_right fun delivered =>
      ⟨command, rfl, delivered.1⟩

theorem run_holding (lawful : Lawful runtime) {actions : List Action}
    (settled : Settled runtime False s) (ran : run runtime s actions = .ok s')
    (undelivered : ∀ command, Action.command command ∈ actions → ¬ Delivers name owner consumer command)
    (held : Holding s' name owner consumer offset) : Holding s name owner consumer offset := by
  induction actions generalizing s with
  | nil => exact ok.inj ran ▸ held
  | cons action rest ih =>
    obtain ⟨middle, stepped, later⟩ := run_cons.mp ran
    have after := (step_advances lawful settled False.elim stepped).1
    have between := ih after later fun command mem => undelivered command (mem_cons_of_mem _ mem)
    rcases step_holding lawful settled stepped between with before | ⟨command, rfl, delivers⟩
    · exact before
    · exact absurd delivers (undelivered command mem_cons_self)

theorem validateSettlement_holding (settled : Settled runtime orderly s)
    (valid : s.validateSettlement name.1 name.2 owner consumer deliveryTag multiple = .ok ()) :
    ∃ offset, Covers deliveryTag multiple offset ∧ Holding s name owner consumer offset := by
  obtain ⟨record, declared, valid⟩ := bind_eq_ok.mp valid
  obtain ⟨_, _, valid⟩ := bind_eq_ok.mp valid
  obtain ⟨stream, found, reaches⟩ := bind_eq_ok.mp valid
  rw [orElse_eq_ok] at declared found
  rw [require_eq_ok] at reaches
  obtain ⟨ref, mem, reached⟩ := any_eq_true.mp reaches
  obtain ⟨tag, delivery, covered⟩ := settledBy_eq_true.mp reached
  obtain ⟨_, rfl⟩ := (RecordAt.well settled declared found).tagged mem delivery
  exact ⟨ref.offset, covered, ref, _, ⟨record, stream, declared, found, mem, rfl⟩, delivery⟩

theorem Settlement.reaches (settlement : Settlement name owner consumer deliveryTag multiple command)
    (valid : s.validateCommand command = .ok ()) :
    s.validateSettlement name.1 name.2 owner consumer deliveryTag multiple = .ok () := by
  cases settlement with
  | ack => exact valid
  | nack requeue =>
    obtain ⟨_, reaches, _⟩ := bind_eq_ok.mp valid
    exact reaches

section

variable (settled : Settled runtime orderly s)
  (settlement : Settlement name owner consumer deliveryTag multiple command)
  (applied : apply runtime s command = .ok (s', reply))

include settled settlement applied

theorem Settlement.settles : ∃ record ack requeue, s.queues[name]? = some record ∧
      Settles s s' record.stream (StreamReference.settledBy owner consumer deliveryTag multiple)
        ack requeue := by
  obtain ⟨valid, dispatched⟩ := apply_eq_ok.mp applied
  have reaches := settlement.reaches valid
  cases settlement with
  | ack =>
    obtain ⟨record, declared, meets⟩ := settle_meets settled reaches (show true = false →
      false = false → _ from nofun)
    obtain ⟨after, settle, same⟩ := bind_eq_ok.mp dispatched
    obtain ⟨rfl, _⟩ := mk.inj (ok.inj same)
    exact ⟨record, true, false, declared, (meets.ok_post settle).2.2⟩
  | nack requeue =>
    obtain ⟨_, _, routes⟩ := bind_eq_ok.mp valid
    obtain ⟨record, declared, meets⟩ := settle_meets settled reaches (show false = false →
      requeue = false → _ by
      rintro - rfl
      exact routes)
    obtain ⟨after, settle, same⟩ := bind_eq_ok.mp dispatched
    obtain ⟨rfl, _⟩ := mk.inj (ok.inj same)
    exact ⟨record, false, requeue, declared, (meets.ok_post settle).2.2⟩

theorem Settlement.touches {id : StreamId} {before : StreamState} (has : s.streams[id]? = some before) :
    ∃ after, s'.streams[id]? = some after ∧ ∀ ref ∈ before.records.items, ref ∈ after.records.items ∨
      (Covers deliveryTag multiple ref.offset ∧ (∃ queue, s.queues[name]? = some queue ∧
        queue.stream = id) ∧
        ∃ tag, ref.delivery = .unacked owner consumer tag) := by
  obtain ⟨record, ack, requeue, declared, settles⟩ := settlement.settles settled applied
  obtain ⟨after, drafts, standing, items⟩ := settles id before has
  refine ⟨after, standing, ?_⟩
  intro ref mem
  by_cases reached : id = record.stream ∧ ref.settledBy owner consumer deliveryTag multiple = true
  · obtain ⟨rfl, within⟩ := reached
    obtain ⟨tag, delivery, covered⟩ := settledBy_eq_true.mp within
    obtain ⟨_, rfl⟩ := (RecordAt.well settled declared has).tagged mem delivery
    exact .inr ⟨covered, ⟨record, declared, rfl⟩, _, delivery⟩
  · refine .inl ?_
    rw [items]
    exact mem_append_left _ (mem_map.mpr ⟨ref, mem, if_neg reached⟩)

end

theorem expireDeliveryLeases_unheld {owners : List Uuid} (settled : Settled runtime orderly s)
    (expired : owner ∈ owners) :
    ¬ Holding (owners.foldl (fun s owner => s.releaseDeliveryLease project owner) s)
      (project, queue) owner consumer
      offset := by
  have released : ∀ (owners : List Uuid) {state : BrokerStateMachine}, Settled runtime orderly state →
      Evolves nobody state (owners.foldl (fun s owner =>
        s.releaseDeliveryLease project owner) state) := by
    intro owners
    induction owners with
    | nil => exact fun _ => .of_same rfl rfl rfl
    | cons first rest ih =>
      intro state settledState
      obtain ⟨after, advances, _⟩ := releaseDeliveryLease_settled settledState project first
      exact advances.evolves.trans (ih after)
  induction owners generalizing s with
  | nil => exact absurd expired not_mem_nil
  | cons first rest ih =>
    obtain ⟨after, _, idle⟩ := releaseDeliveryLease_settled settled project first
    rcases mem_cons.mp expired with rfl | later
    · intro held
      rcases (released rest after).holding after held with ⟨_, _, handed⟩ | before
      · exact handed.elim
      · exact idle before.holds
    · exact ih after later

end Holders

section Leases

variable {runtime : Runtime} {s s' : BrokerStateMachine}

theorem release_unheld (settled : Settled runtime False s)
    (applied : apply runtime s (.releaseDeliveryLease project owner) = .ok (s', reply)) :
    ¬ Holding s' (project, queue) owner consumer offset := by
  obtain ⟨_, dispatched⟩ := apply_eq_ok.mp applied
  obtain ⟨rfl, _⟩ := mk.inj (ok.inj dispatched)
  exact fun held => (releaseDeliveryLease_settled settled project owner).2.2 held.holds

theorem retain_unheld (settled : Settled runtime False s) {deadline now : Int}
    (applied : apply runtime s (.retain project now) = .ok (s', reply))
    (leased : s.deliveryLeases[(project, owner)]? = some deadline) (due : deadline ≤ now) :
    ¬ Holding s' (project, queue) owner consumer offset := by
  obtain ⟨_, dispatched⟩ := apply_eq_ok.mp applied
  obtain ⟨silent, expiry, dispatched⟩ := bind_eq_ok.mp dispatched
  obtain ⟨⟨trimmed, removed, candidates⟩, trim, dispatched⟩ := bind_eq_ok.mp dispatched
  obtain ⟨final, reclaim, same⟩ := bind_eq_ok.mp dispatched
  obtain ⟨rfl, _⟩ := mk.inj (ok.inj same)
  obtain ⟨_, settledSilent, _, silenced⟩ :=
    (expireGroupMembers_meets settled project now).ok_post expiry
  have leases : silent.deliveryLeases = s.deliveryLeases := by rw [silenced.regrouped]
  have expired : owner ∈ silent.expiredOwners project now := by
    unfold expiredOwners
    rw [leases]
    refine mem_map.mpr ⟨((project, owner), deadline), mem_filter.mpr ⟨mem_toList.mpr leased, ?_⟩, rfl⟩
    simpa using due
  obtain ⟨settledReleased, _⟩ := expireDeliveryLeases_settled settledSilent project now
  have trimming : Meets (BrokerStateMachine.retain _ project now) _ fun _ => True :=
    retain_meets settledReleased project now
  obtain ⟨shed, inv, charged, _⟩ := trimming.ok_post trim
  have reclaimed : Meets (trimmed.reclaimPayloadCandidates project candidates) _ fun _ => True :=
    reclaimPayloadCandidates_meets inv charged
  have evolves := shed.evolves.trans (reclaimed.ok_post reclaim).2.1.evolves
  intro held
  rcases evolves.holding settledReleased held with ⟨_, _, handed⟩ | before
  · exact handed.elim
  · exact expireDeliveryLeases_unheld settledSilent expired before

/-- What holds of the holders in a state, and of what may happen to them next. -/
structure Fenced (runtime : Runtime) (s : BrokerStateMachine) : Prop where
  holder : ∀ {name owner consumer owner' consumer' offset}, Holding s name owner consumer offset →
    Holding s name owner' consumer' offset → owner = owner' ∧ consumer = consumer'
  taken : ∀ {command s' reply name owner consumer offset},
    apply runtime s command = .ok (s', reply) → Holding s' name owner consumer offset →
      Holding s name owner consumer offset ∨ (Delivers name owner consumer command ∧
        ReadyAt s name offset)
  delivered :
    ∀ {project queue start maximum owner consumer automaticAck resolvedTimeMs s' deliveries record},
    apply runtime s (.deliverQueue project queue start maximum owner consumer automaticAck
      resolvedTimeMs) = .ok (s', .deliveries deliveries) →
    s.queues[(project, queue)]? = some record → record.kind = .classic →
      ∀ delivery ∈ deliveries, delivery.deliveryTag = delivery.offset + 1 ∧
        ReadyAt s (project, queue) delivery.offset
  accepted : ∀ {name owner consumer deliveryTag multiple command},
    Settlement name owner consumer deliveryTag multiple command → s.validateCommand command = .ok () →
      ∃ offset, Covers deliveryTag multiple offset ∧ Holding s name owner consumer offset
  touched : ∀ {name owner consumer deliveryTag multiple command s' reply id before},
    Settlement name owner consumer deliveryTag multiple command →
    apply runtime s command = .ok (s', reply) → s.streams[id]? = some before →
      ∃ after, s'.streams[id]? = some after ∧
        ∀ reference ∈ before.records.items, reference ∈ after.records.items ∨
        (Covers deliveryTag multiple reference.offset ∧ (∃ queue, s.queues[name]? = some queue ∧
          queue.stream = id) ∧ ∃ tag, reference.delivery = .unacked owner consumer tag)
  released : ∀ {project owner s' reply}, apply runtime s (.releaseDeliveryLease project owner) =
    .ok (s', reply) → ∀ queue consumer offset, ¬ Holding s' (project, queue) owner consumer offset
  expired : ∀ {project owner deadline resolvedTimeMs s' reply},
    apply runtime s (.retain project resolvedTimeMs) = .ok (s', reply) →
    s.deliveryLeases[(project, owner)]? = some deadline → deadline ≤ resolvedTimeMs →
      ∀ queue consumer offset, ¬ Holding s' (project, queue) owner consumer offset
  late : ∀ {actions s' name owner consumer deliveryTag multiple command},
    run runtime s actions = .ok s' → (∀ issued, Action.command issued ∈ actions →
      ¬ Delivers name owner consumer issued) →
    (∀ offset, Covers deliveryTag multiple offset → ¬ Holding s name owner consumer offset) →
    Settlement name owner consumer deliveryTag multiple command →
      ∃ error, s'.validateCommand command = .error error ∧ apply runtime s' command = .error error

/-- In every state of the broker a record has at most one holder, a delivery takes ready records
only, a settlement is accepted from the holder alone, and one from a pair that has lost its records
is rejected until the queue is delivered to the pair again. -/
theorem settlements_fenced (lawful : Lawful runtime) (reachable : Reachable runtime s) :
    Fenced runtime s := by
  have settled := reachable.settled lawful
  refine
    { holder := Holding.unique settled
      taken := apply_holding lawful settled
      delivered := ?_
      accepted := fun settlement accepted =>
        validateSettlement_holding settled (settlement.reaches accepted)
      touched := fun settlement applied present => settlement.touches settled applied present
      released := fun applied _ _ _ => release_unheld settled applied
      expired := fun applied leased due _ _ _ => retain_unheld settled applied leased due
      late := ?_ }
  · intro project queue start maximum owner consumer automaticAck resolvedTimeMs s' deliveries
      record applied found classic delivery member
    obtain ⟨again, stream, pending, listed, declared, same, _, fetched⟩ := apply_fetched settled applied
    obtain rfl := BrokerReply.deliveries.inj same
    rw [found, Option.some.injEq] at declared
    subst declared
    obtain ⟨index, found'⟩ := mem_iff_getElem?.mp member
    obtain ⟨chosen, picked, offset, tag⟩ := related_getElem? fetched.delivered found'
    have among := mem_of_getElem? picked
    refine ⟨tag.trans (congrArg (· + 1) offset.symm), chosen.reference, ?_,
      fetched.picked.ready classic chosen among⟩
    exact ⟨record, stream, found, fetched.found, fetched.picked.sublist.mem (mem_map_of_mem among),
      offset.symm⟩
  · intro actions s' name owner consumer deliveryTag multiple command ran undelivered lost settlement
    have refused : s'.validateCommand command ≠ .ok () := by
      intro accepted
      obtain ⟨offset, covered, held⟩ :=
        validateSettlement_holding (run_settled lawful settled False.elim ran)
        (settlement.reaches accepted)
      exact lost offset covered (run_holding lawful settled ran undelivered held)
    cases outcome : s'.validateCommand command with
    | ok => exact absurd outcome refused
    | error error =>
      refine ⟨error, rfl, ?_⟩
      unfold apply
      rw [outcome]
      rfl

def deliverActions :
    List Action := publishActions ++ [.command (.deliverQueue 1 "q" .first 1 5 1 false 11)]

theorem settlements_fenced_released : ∃ s s' reply error, run sevenStore .empty deliverActions = .ok s ∧
      apply sevenStore s (.releaseDeliveryLease 1 5) = .ok (s', reply) ∧
      apply sevenStore s' (.ack 1 "q" 5 1 1 false) = .error error := by
  have ran := run_reached sevenStore .empty deliverActions (by decide +kernel)
  have fenced := settlements_fenced (loneStore_lawful _) ⟨_, ran⟩
  generalize reached sevenStore .empty deliverActions = s at ran fenced
  have released : apply sevenStore s (.releaseDeliveryLease 1 5) =
    .ok (s.releaseDeliveryLease 1 5, .acknowledged) := rfl
  have stepped : run sevenStore s [.command (.releaseDeliveryLease 1 5)] =
      .ok (s.releaseDeliveryLease 1 5) := rfl
  have after := settlements_fenced (loneStore_lawful _)
    ⟨deliverActions ++ [.command (.releaseDeliveryLease 1 5)], by
      unfold run
      rw [foldlM_append]
      exact bind_eq_ok.mpr ⟨s, ran, stepped⟩⟩
  obtain ⟨error, _, refused⟩ := after.late (show run sevenStore _ [] = .ok _ from rfl) nofun
    (fun offset _ => fenced.released released "q" 1 offset) (show Settlement (1,
      "q") 5 1 1 false _ from .ack)
  exact ⟨s, _, _, error, ran, released, refused⟩

end Leases

end IronGraph.Broker
