import IronGraph.Broker.Apply

/-!
The whole-state validation made at recovery and after a project is dropped, and the drop of a
project. The part over consumer groups is kept apart; the source runs the two parts one after the
other.
-/

namespace IronGraph.Broker

open Std Outcome ExtTreeSet

namespace BrokerStateMachine

variable (s : BrokerStateMachine)

structure Tally where
  livePayloads : ExtTreeSet MessageId
  liveSegmentRecords : ExtTreeMap Nat Nat
  liveDeliveryLeases : ExtTreeSet (ProjectId × Uuid)

def assignStream (message : String) (project : ProjectId) (owners : ExtTreeMap StreamId ProjectId)
    (stream : StreamId) : Result (ExtTreeMap StreamId ProjectId) := do
  require (!owners.contains stream) (corrupt message)
  return owners.insert stream project

def assignTopic (owners : ExtTreeMap StreamId ProjectId) (entry : Name × Topic) :
    Result (ExtTreeMap StreamId ProjectId) := do
  let (name, topic) := entry
  require (!(topic.partitions.isEmpty || decide (4096 < topic.partitions.length) ||
    !topic.retention.validate.isOk)) (corrupt "broker topic partition set is invalid")
  topic.partitions.foldlM (assignStream "broker stream is assigned more than once" name.1) owners

def assignQueue (owners : ExtTreeMap StreamId ProjectId) (entry : Name × Queue) :
    Result (ExtTreeMap StreamId ProjectId) := do
  let (name, queue) := entry
  require queue.retention.validate.isOk (corrupt "broker queue retention policy is invalid")
  assignStream "broker queue stream is assigned more than once" name.1 owners queue.stream

def streamProjects : Result (ExtTreeMap StreamId ProjectId) := do
  let owners ← s.topics.toList.foldlM assignTopic ∅
  s.queues.toList.foldlM assignQueue owners

variable (project : ProjectId)

def payloadInScope (payload : StoredPayloadRecord) (segment : BrokerPayloadSegment) : Bool :=
  segment.descriptor.family == .brokerPayload && segment.descriptor.projectId == some project &&
    decide (payload.payloadBytes ≤ maxPayloadBytes) && decide (payload.payloadBytes ≤
      payload.retainedBytes) &&
    payload.retainedBytes == payload.location.bytes &&
    (checkedSum payload.location.offset payload.location.bytes).any fun bound =>
      decide (bound ≤ segment.descriptor.bytes)

def tallyPayload (tally : Tally) (message : MessageId) (segment : Nat) : Result Tally := do
  if tally.livePayloads.contains message then return tally
  else do
    let count := tally.liveSegmentRecords.getD segment 0
    require (count + 1 ≤ u32Max) (corrupt "broker payload segment live count overflow")
    return { tally with
      livePayloads := tally.livePayloads.insert message
      liveSegmentRecords := tally.liveSegmentRecords.insert segment (count + 1) }

def tallyDelivery (tally : Tally) : DeliveryState → Result Tally
  | .unacked owner _ _ => do
    require (owner != 0) (corrupt "broker delivery lease owner is invalid")
    return { tally with liveDeliveryLeases := tally.liveDeliveryLeases.insert (project, owner) }
  | _ => .ok tally

structure StreamWalk where
  expected : Nat
  retainedBytes : Nat
  tally : Tally

def validateReference (walk : StreamWalk) (reference : StreamReference) : Result StreamWalk := do
  require (reference.offset == walk.expected) (corrupt "broker stream offsets are not consecutive")
  let expected ← orElse (checkedSum walk.expected 1) (corrupt "broker stream offset overflow")
  let payload ← orElse s.payloads[reference.message]? (corrupt "broker reference has no payload")
  let segment ← orElse s.payloadSegments[payload.segment]? (corrupt "broker payload segment is missing")
  require (payloadInScope project payload segment)
    (corrupt "broker payload descriptor has invalid scope or size")
  let tally ← tallyPayload walk.tally reference.message payload.segment
  let accounted ← s.accountedPayloadBytes payload
  let retainedBytes ← orElse (checkedSum walk.retainedBytes accounted)
    (corrupt "broker retained byte accounting overflow")
  let tally ← tallyDelivery project tally reference.delivery
  return { expected, retainedBytes, tally }

def validateStream (owners : ExtTreeMap StreamId ProjectId) (tally : Tally)
    (entry : StreamId × StreamState) : Result Tally := do
  let (id, stream) := entry
  require (stream.baseOffset ≤ stream.nextOffset) (corrupt "broker stream cursor moved backwards")
  let project ← orElse owners[id]? (corrupt "broker stream has no project owner")
  let walk ← stream.records.items.foldlM (s.validateReference project)
    { expected := stream.baseOffset, retainedBytes := 0, tally }
  require (walk.expected == stream.nextOffset && walk.retainedBytes == stream.retainedBytes)
    (corrupt "broker stream cursor or retained byte accounting is invalid")
  return walk.tally

def cursorsCover : Bool := s.payloads.keys.all (fun id => decide (id ≤ s.nextMessageId)) &&
    s.streams.keys.all (fun id => decide (id ≤ s.nextStreamId)) &&
    s.payloadSegments.keys.all fun id => decide (id ≤ s.nextPayloadSegmentId)

def segmentMatches (tally : Tally) (entry : Nat × BrokerPayloadSegment) : Bool :=
  entry.2.id == entry.1 && entry.2.liveRecords != 0 &&
    tally.liveSegmentRecords[entry.1]? == some entry.2.liveRecords

def bindingMatches (entry : BindingKey × Binding) : Bool :=
  let (key, binding) := entry
  binding.exchange == key.2.1 && s.exchanges.contains (key.1, key.2.1) &&
    s.queues.contains (key.1, binding.queue)

def validateStorage : Result Unit := do
  require s.cursorsCover (corrupt "broker allocator cursor precedes canonical records")
  let owners ← s.streamProjects
  require (owners.size == s.streams.size && owners.keys.all s.streams.contains)
    (corrupt "broker stream declaration set is incomplete")
  let tally ← s.streams.toList.foldlM (s.validateStream owners)
    { livePayloads := ∅, liveSegmentRecords := ∅, liveDeliveryLeases := ∅ }
  require (tally.livePayloads.size == s.payloads.size &&
    s.payloads.keys.all tally.livePayloads.contains &&
      s.payloads.toList.all fun (id, payload) => id == payload.id)
    (corrupt "broker payload set differs from live stream references")
  require (tally.liveSegmentRecords.size == s.payloadSegments.size &&
      s.payloadSegments.toList.all (segmentMatches tally))
    (corrupt "broker payload segment table differs from live messages")
  require (s.deliveryLeases.keys == tally.liveDeliveryLeases.toList)
    (corrupt "broker delivery lease set differs from unacknowledged deliveries")
  require (s.bindings.toList.all s.bindingMatches)
    (corrupt "broker binding endpoint is missing or cross-project")

def validateGroupMembers (group : GroupState) : Result Bool :=
  if group.members.isEmpty then .ok true
  else if !group.members.contains group.leader then .ok false
  else
    match selectGroupProtocol group.members with
    | .ok protocol => .ok (protocol == group.protocol)
    | .error _ => .error (corrupt "broker consumer group has no common protocol")

def validateOffset (_ : Unit) (entry : (String × Int) × Nat) : Result Unit := do
  let ((topic, partition), offset) := entry
  let stream ← s.partitionStream project topic partition
  let state ← orElse s.streams[stream]? (corrupt "broker committed offset stream is missing")
  require (offset ≤ state.nextOffset) (corrupt "broker committed offset exceeds the log end")

def validateGroup (_ : Unit) (entry : Name × GroupState) : Result Unit := do
  let (name, group) := entry
  let invalid := corrupt "broker consumer group state is invalid"
  require (0 ≤ group.generation) invalid
  let led ← validateGroupMembers group
  require (led && group.assignments.keys.all group.members.contains) invalid
  group.offsets.toList.foldlM (s.validateOffset name.1) ()

def validateGroups : Result Unit := s.groups.toList.foldlM s.validateGroup ()

def validateState : Result Unit := do
  s.validateStorage
  s.validateGroups

def removeProject : Result BrokerStateMachine := do
  let owned (name : Name) : Bool := name.1 == project
  let removedStreams : ExtTreeSet StreamId := ofList (s.projectStreams project)
  let s := (s.topics.keys.filter owned).foldl removeTopic s
  let s := (s.queues.keys.filter owned).foldl removeQueue s
  let s := (s.exchanges.keys.filter owned).foldl removeExchange s
  let s := s.retainBindings fun key _ => key.1 != project
  let s := (s.groups.keys.filter owned).foldl removeGroup s
  let s := (s.deliveryLeases.keys.filter fun key => key.1 == project).foldl removeLease s
  let s := (s.queueConsumers.keys.filter owned).foldl removeConsumers s
  let removedPayloads : ExtTreeSet MessageId := ofList (s.streamMessages removedStreams.toList)
  let s := removedStreams.toList.foldl removeStream s
  removedPayloads.toList.foldlM removePayload s

def dropProject : Result BrokerStateMachine := do
  let s ← s.removeProject project
  s.validateState
  return s

end BrokerStateMachine

end IronGraph.Broker
