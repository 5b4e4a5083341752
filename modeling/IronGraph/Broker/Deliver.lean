import IronGraph.Broker.Publish

/-!
Delivery and settlement of queue references, delivery leases, retention, and the removal of queues
and of payloads nothing refers to any more.
-/

namespace IronGraph.Broker

open Std Outcome ExtTreeSet Error

structure PendingDelivery where
  reference : StreamReference
  stored : StoredPayloadRecord

def StreamState.getByOffset (stream : StreamState) (offset : Nat) : Option (Nat × StreamReference) :=
  if stream.baseOffset ≤ offset then
    let position := stream.records.head + (offset - stream.baseOffset)
    stream.records.values[position]?.map fun reference => (position, reference)
  else none

namespace BrokerStateMachine

variable (s : BrokerStateMachine) (project : ProjectId)

def selectDeliveries (s : BrokerStateMachine) (kind : QueueKind) (maximum : Nat) :
    List StreamReference → Nat → List PendingDelivery → Result (List PendingDelivery)
  | [], _, pending => .ok pending
  | reference :: rest, visibleBytes, pending =>
    if maximum ≤ pending.length then .ok pending
      else if kind = .classic ∧ reference.delivery ≠ .ready then
      s.selectDeliveries kind maximum rest visibleBytes pending
    else do
      let stored ← orElse s.payloads[reference.message]?
        (new .retentionExpired "broker payload was retired during the read")
      let accounted ← s.accountedPayloadBytes stored
      let nextVisibleBytes ← orElse
        ((checkedSum visibleBytes accounted).bind fun bytes =>
          checkedSum bytes brokerDeliveryEnvelopeBytes)
        (internal "broker delivery result length overflow")
      if maxBrokerDeliveryResultBytes < nextVisibleBytes then do
        require (!pending.isEmpty)
          (new .resultBudgetExceeded "delivery response exceeds the result bound")
        return pending
      else do
        let _ ← orElse (checkedSum reference.offset 1) (internal "delivery tag exhausted")
        s.selectDeliveries kind maximum rest nextVisibleBytes (pending ++ [{ reference, stored }])

def buildDelivery (queue : String) (loaded : ExtTreeMap MessageId PayloadRecord)
    (pending : PendingDelivery) : Result Delivery := do
  let payload ← orElse loaded[pending.stored.id]?
    (internal "broker payload batch omitted a requested ID")
  let (exchange, routingKey) :=
    deliveryRoute payload pending.reference.currentExchange pending.reference.currentRoutingKey
  let deliveryTag ← orElse (checkedSum pending.reference.offset 1) (internal "delivery tag exhausted")
  return {
    queue
    offset := pending.reference.offset
    deliveryTag
    redelivered := pending.reference.redelivered
    deathCount := pending.reference.deathCount
    exchange
    routingKey
    payload }

def markDelivered (automaticAck : Bool) (owner : Uuid) (consumer : Nat) (edit : StreamEdit)
    (pending : PendingDelivery) : Result StreamEdit := do
  let (position, reference) ← orElse (edit.stream.getByOffset pending.reference.offset)
    (internal "selected delivery offset disappeared")
  let delivery : DeliveryState :=
    bif automaticAck then .acknowledged else .unacked owner consumer (pending.reference.offset + 1)
  return edit.set position { reference with delivery }

variable (owner : Uuid)

def extendLease (deadline : Int) : BrokerStateMachine :=
  s.insertLease (project, owner) (s.deliveryLeases[(project, owner)]?.elim deadline (max deadline))

def deliveryDeadline (automaticAck : Bool) (resolvedTimeMs : Int) : Result (Option Int) :=
  if automaticAck then .ok none
  else
    (orElse (checkedAddTime resolvedTimeMs deliveryLeaseMillis)
      (internal "delivery lease deadline overflow")).map some

def deliverClassic (stream : StreamId)
    (pending : List PendingDelivery) (owner : Uuid) (consumer : Nat) (automaticAck : Bool)
    (resolvedTimeMs : Int) : Result BrokerStateMachine := do
  let leaseDeadline ← deliveryDeadline automaticAck resolvedTimeMs
  let edit ← orElse (s.editStream stream) (internal "queue stream disappeared")
  let edit ← pending.foldlM (markDelivered automaticAck owner consumer) edit
  let s := s.commitStream edit
  return match leaseDeadline with
    | some deadline => if pending.isEmpty then s else s.extendLease project owner deadline
    | none => s

def fetchQueue (runtime : Runtime) (s : BrokerStateMachine) (project : ProjectId) (queue : String)
    (offset : StreamOffset) (maximum : Nat) (owner : Uuid) (consumer : Nat) (automaticAck : Bool)
    (resolvedTimeMs : Int) : Result (BrokerStateMachine × List Delivery) := do
  let queueRecord ← orElse s.queues[(project, queue)]? (invalidData "queue does not exist")
  let stream ← orElse s.streams[queueRecord.stream]? (internal "queue stream is missing")
  let start ← s.resolveOffset stream offset
  let pending ← s.selectDeliveries queueRecord.kind maximum
    (stream.records.itemsFrom (stream.records.head + (start - stream.baseOffset))) 0 []
  let loaded ← loadPayloads runtime s.payloadSegments (pending.map (·.stored))
  let deliveries ← pending.mapM (buildDelivery queue loaded)
  match queueRecord.kind with
  | .classic => do
    let s ← s.deliverClassic project queueRecord.stream pending owner consumer automaticAck
        resolvedTimeMs
    return (s, deliveries)
  | .stream => return (s, deliveries)

def classicStreams : List StreamId :=
  (s.queues.toList.filter fun (name, queue) => name.1 == project && queue.kind == .classic).map
    fun (_, queue) => queue.stream

def ownerHasUnacked : Bool := (s.classicStreams project).any fun stream =>
    s.streams[stream]?.any fun state =>
      state.records.items.any fun reference => reference.delivery.ownedBy owner

def removeDeliveryLeaseIfIdle : BrokerStateMachine :=
  if s.ownerHasUnacked project owner then s else s.removeLease (project, owner)

def settledOffsets (stream : StreamState) (owner : Uuid) (consumer deliveryTag : Nat)
    (multiple : Bool) : List Nat :=
  if multiple then
    ((stream.records.items.takeWhile fun reference =>
        decide (saturatingAdd reference.offset 1 ≤ deliveryTag)).filter fun reference =>
      match reference.delivery with
      | .unacked candidate candidateConsumer _ => candidate == owner && candidateConsumer == consumer
      | _ => false).map (·.offset)
  else if deliveryTag = 0 then []
  else
    match stream.getByOffset (deliveryTag - 1) with
    | some (_, reference) =>
      if reference.settledBy owner consumer deliveryTag false then [deliveryTag - 1] else []
    | none => []

def settleOffset (ack requeue : Bool) (progress : StreamEdit × List (MessageId × Nat)) (offset : Nat) :
    Result (StreamEdit × List (MessageId × Nat)) := do
  let (edit, deadLetters) := progress
  let (position, reference) ← orElse (edit.stream.getByOffset offset)
    (internal "settled delivery offset disappeared")
  if ack then return (edit.set position { reference with delivery := .acknowledged }, deadLetters)
  else if requeue then
    return (edit.set position { reference with delivery := .ready, redelivered := true }, deadLetters)
  else
    return (edit.set position { reference with delivery := .deadLettered },
      deadLetters ++ [(reference.message, min (reference.deathCount + 1) u32Max)])

def appendDeadLetters (exchange routing : String) (targets : List StreamId) :
    List (MessageId × Nat) → BrokerStateMachine → Result BrokerStateMachine
  | [], s => .ok s
  | (message, deathCount) :: rest, s => do
    let (s, _) ← appendToStreams message (some exchange) (some routing) deathCount targets s
    appendDeadLetters exchange routing targets rest s

def deadLetter (queueRecord : Queue) (deadLetters : List (MessageId × Nat)) :
    Result BrokerStateMachine :=
  if deadLetters.isEmpty then .ok s
  else
    match queueRecord.deadLetterExchange with
    | none => .ok s
    | some exchange => do
      let routing := queueRecord.deadLetterRoutingKey.getD ""
      let targets ← s.routedStreams (internal "configured dead-letter exchange is missing")
          project exchange routing
      appendDeadLetters exchange routing targets.toList deadLetters s

def settle (queue : String) (owner : Uuid)
    (consumer deliveryTag : Nat) (multiple ack requeue : Bool) : Result BrokerStateMachine := do
  let queueRecord ← orElse s.queues[(project, queue)]? (invalidData "queue does not exist")
  require (queueRecord.kind == .classic)
    (invalidData "stream queues use offsets, not destructive acknowledgements")
  let edit ← orElse (s.editStream queueRecord.stream) (internal "queue stream is missing")
  let offsets := settledOffsets edit.stream owner consumer deliveryTag multiple
  let (edit, deadLetters) ← offsets.foldlM (settleOffset ack requeue) (edit, [])
  let s := s.commitStream edit
  require (!offsets.isEmpty) (new .protocolViolation "delivery tag is unknown")
  let s := s.removeDeliveryLeaseIfIdle project owner
  s.deadLetter project queueRecord deadLetters

variable (resolvedTimeMs : Int)

def renewDeliveryLease : Result BrokerStateMachine :=
  if s.ownerHasUnacked project owner then do
    let deadline ← orElse (checkedAddTime resolvedTimeMs deliveryLeaseMillis)
      (internal "delivery lease deadline overflow")
    return s.extendLease project owner deadline
  else .ok (s.removeLease (project, owner))

def requeueOffset (edit : StreamEdit) (offset : Nat) : StreamEdit :=
  match edit.stream.getByOffset offset with
  | some (position, reference) =>
    edit.set position { reference with delivery := .ready, redelivered := true }
  | none => edit

def requeueOwned (s : BrokerStateMachine) (stream : StreamId) : BrokerStateMachine :=
  match s.editStream stream with
  | none => s
  | some edit =>
    let offsets := (edit.stream.records.items.filter fun reference =>
      reference.delivery.ownedBy owner).map (·.offset)
    s.commitStream (offsets.foldl requeueOffset edit)

def releaseDeliveryLease : BrokerStateMachine :=
  ((s.classicStreams project).foldl (requeueOwned owner) s).removeLease (project, owner)

def expiredOwners : List Uuid := (s.deliveryLeases.toList.filter fun (key, deadline) =>
    key.1 == project && decide (deadline ≤ resolvedTimeMs)).map fun (key, _) => key.2

def expireDeliveryLeases : BrokerStateMachine :=
  (s.expiredOwners project resolvedTimeMs).foldl (fun s owner => s.releaseDeliveryLease project owner) s

def retentionPolicies : ExtTreeMap StreamId RetentionPolicy :=
  let topics := s.topics.toList.filter fun (name, _) => name.1 == project
  let queues := s.queues.toList.filter fun (name, _) => name.1 == project
  let policies : ExtTreeMap StreamId RetentionPolicy := topics.foldl
    (fun policies (_, topic) => topic.partitions.foldl (fun policies id =>
      policies.insert id topic.retention) policies) ∅
  queues.foldl (fun policies (_, queue) => policies.insert queue.stream queue.retention) policies

def retentionDue (policy : RetentionPolicy) (resolvedTimeMs : Int) (retainedBytes : Nat)
    (reference : StreamReference) (payload : StoredPayloadRecord) : Bool :=
  policy.maxAgeMs.any (fun age =>
      decide (age ≤ i64Max ∧ (age : Int) ≤ saturatingSub resolvedTimeMs payload.resolvedTimeMs)) ||
    policy.maxBytes.any (fun maximum => decide (maximum < retainedBytes)) ||
    match reference.delivery with
    | .acknowledged => true
    | .deadLettered => true
    | _ => false

/-- How many references leave the front of a stream, and the bytes retained after them. -/
def retentionScan (s : BrokerStateMachine) (policy : RetentionPolicy) (resolvedTimeMs : Int) :
    List StreamReference → Nat → Nat → Result (Nat × Nat)
  | [], retainedBytes, remove => .ok (retainedBytes, remove)
  | front :: rest, retainedBytes, remove =>
    if front.delivery.isUnacked then .ok (retainedBytes, remove)
    else do
      let payload ← orElse s.payloads[front.message]? (internal "retention payload is missing")
      if retentionDue policy resolvedTimeMs retainedBytes front payload then do
        let accounted ← s.accountedPayloadBytes payload
        s.retentionScan policy resolvedTimeMs rest (retainedBytes - accounted) (remove + 1)
      else return (retainedBytes, remove)

structure RetentionStep where
  stream : StreamId
  count : Nat
  removedBytes : Nat

def retentionPlan (s : BrokerStateMachine) (resolvedTimeMs : Int) :
    List (StreamId × RetentionPolicy) → Result (List RetentionStep)
  | [] => .ok []
  | (id, policy) :: rest => do
    let state ← orElse s.streams[id]? (internal "retention stream is missing")
    let (retainedBytes, remove) ← s.retentionScan policy resolvedTimeMs state.records.items
        state.retainedBytes 0
    let plan ← s.retentionPlan resolvedTimeMs rest
    return if remove = 0 then plan
      else
        { stream := id, count := remove, removedBytes := state.retainedBytes - retainedBytes } :: plan

def popReferences : Nat → StreamEdit → ExtTreeSet MessageId → Result (StreamEdit × ExtTreeSet MessageId)
  | 0, edit, candidates => .ok (edit, candidates)
  | count + 1, edit, candidates => do
    let (reference, edit) ← orElse edit.popFront (internal "retention plan exceeds stream length")
    popReferences count { edit with stream := { edit.stream with
      baseOffset := saturatingAdd reference.offset 1 } } (candidates.insert reference.message)

def trimStreams : List RetentionStep → BrokerStateMachine → Nat → ExtTreeSet MessageId →
    Result (BrokerStateMachine × Nat × ExtTreeSet MessageId)
  | [], s, removed, candidates => .ok (s, removed, candidates)
  | step :: rest, s, removed, candidates => do
    let edit ← orElse (s.editStream step.stream) (internal "retention stream is missing")
    let (edit, candidates) ← popReferences step.count edit candidates
    let retainedBytes := edit.stream.retainedBytes - step.removedBytes
    let s := s.commitStream { edit with stream := { edit.stream with retainedBytes } }
    trimStreams rest s (saturatingAdd removed step.count) candidates

def retain : Result (BrokerStateMachine × Nat × ExtTreeSet MessageId) := do
  let plan ← s.retentionPlan resolvedTimeMs (s.retentionPolicies project).toList
  trimStreams plan s 0 ∅

/-- Settles a ready record, so that it stops being deliverable. Every record is rewritten. -/
def discardReady (progress : StreamEdit × Nat) (index : Nat) : StreamEdit × Nat :=
  let (edit, discarded) := progress
  let position := edit.stream.records.head + index
  match edit.stream.records.values[position]? with
  | none => (edit, discarded)
  | some reference =>
    if reference.delivery = .ready then
      (edit.set position { reference with delivery := .acknowledged }, min (discarded + 1) u32Max)
    else (edit.set position reference, discarded)

def discardReadyRecords (stream : StreamId) : BrokerStateMachine × Nat := match s.editStream stream with
  | none => (s, 0)
  | some edit =>
    let (edit, discarded) := (List.range edit.stream.records.size).foldl discardReady (edit, 0)
    (s.commitStream edit, discarded)

def removePayload (message : MessageId) : Result BrokerStateMachine := match s.payloads[message]? with
  | none => .ok s
  | some payload => do
    let s := s.removePayloadRow message
    let segment ← orElse s.payloadSegments[payload.segment]?
        (internal "broker payload segment is missing")
    require (segment.liveRecords ≠ 0) (internal "broker payload segment live count underflow")
    let s := s.insertSegment payload.segment { segment with liveRecords := segment.liveRecords - 1 }
    return if segment.liveRecords - 1 = 0 then s.removeSegment payload.segment else s

def stillLive (message : MessageId) : Bool := (s.projectStreams project).any fun id =>
    s.streams[id]?.any fun stream => stream.records.items.any fun reference =>
      reference.message == message

def reclaimPayloadCandidates (candidates : ExtTreeSet MessageId) : Result BrokerStateMachine :=
  (candidates.toList.filter fun message => !s.stillLive project message).foldlM removePayload s

def unsettledOwners (stream : StreamState) : List Uuid :=
  stream.records.items.filterMap fun reference =>
    match reference.delivery with
    | .unacked owner _ _ => some owner
    | _ => none

def withdrawQueue (name : String) (id : StreamId) : BrokerStateMachine :=
  (((s.removeQueue (project, name)).removeConsumers (project, name)).retainBindings
    fun key binding => !(key.1 == project && binding.queue == name)).removeStream id

def dropQueue (name : String) : Result BrokerStateMachine := match s.queues[(project, name)]? with
  | none => .ok s
  | some queue =>
    let stream := s.streams[queue.stream]?.getD .empty
    let removedPayloads : ExtTreeSet MessageId := ofList stream.messages
    let owners : ExtTreeSet Uuid := ofList (unsettledOwners stream)
    let s := s.withdrawQueue project name queue.stream
    let s := owners.toList.foldl (fun s owner => s.removeDeliveryLeaseIfIdle project owner) s
    s.reclaimPayloadCandidates project removedPayloads

end BrokerStateMachine

end IronGraph.Broker
