import IronGraph.Broker.Deliver
import IronGraph.Broker.Groups

/-!
Application of a command to the canonical broker state, and the removal of everything a dropped
project owns.
-/

namespace IronGraph.Broker

open Std Outcome Error

namespace BrokerStateMachine

variable (s : BrokerStateMachine) (project : ProjectId)

def allocateStreams : Nat → BrokerStateMachine → Result (BrokerStateMachine × List StreamId)
  | 0, s => .ok (s, [])
  | count + 1, s => do
    let (s, stream) ← s.allocateStream
    let (s, streams) ← allocateStreams count s
    return (s, stream :: streams)

variable (name : String)

def createTopic (partitions : Nat) (retention : RetentionPolicy) :
    Result (BrokerStateMachine × BrokerReply) := do
  validName name
  retention.validate
  require (partitions != 0 && decide (partitions ≤
    4096)) (invalidData "topic partition count must be 1..=4096")
  match s.topics[(project, name)]? with
  | some existing => do
    require (existing.partitions.length == partitions)
      (invalidData "topic partition count is immutable")
    return (s, .topicAlreadyExists)
  | none => do
    let (s, streams) ← allocateStreams partitions s
    return (s.insertTopic (project, name) { partitions := streams, retention }, .declared)

def streamMessages (streams : List StreamId) : List MessageId :=
  streams.flatMap fun id => s.streams[id]?.elim [] StreamState.messages

def forgetTopic (topic : String) (s : BrokerStateMachine) (name : Name) : BrokerStateMachine :=
  match s.editGroup name with
  | none => s
  | some edit =>
    s.commitGroupChildren (edit.retainOffsets fun key _ => key.1 != topic).clearAssignments

def projectGroups : List Name := s.groups.keys.filter fun name => name.1 == project

def deleteTopic : Result (BrokerStateMachine × BrokerReply) := do
  let topic ← orElse s.topics[(project, name)]? (invalidData "topic does not exist")
  let s := s.removeTopic (project, name)
  let removedPayloads : ExtTreeSet MessageId := ExtTreeSet.ofList (s.streamMessages topic.partitions)
  let s := topic.partitions.foldl removeStream s
  let s := (s.projectGroups project).foldl (forgetTopic name) s
  let s ← s.reclaimPayloadCandidates project removedPayloads
  return (s, .deleted)

structure Clearing where
  machine : BrokerStateMachine
  removed : ExtTreeSet MessageId
  count : Nat

def clearPartition (clearing : Clearing) (id : StreamId) : Result Clearing := do
  let edit ← orElse (clearing.machine.editStream id) (internal "topic partition stream is missing")
  let count := saturatingAdd clearing.count edit.stream.records.size
  let removed := clearing.removed.insertMany edit.stream.messages
  let edit := edit.clear
  let stream := { edit.stream with baseOffset := edit.stream.nextOffset, retainedBytes := 0 }
  return { machine := clearing.machine.commitStream { edit with stream }, removed, count }

def clearTopic : Result (BrokerStateMachine × BrokerReply) := do
  let topic ← orElse s.topics[(project, name)]? (invalidData "topic does not exist")
  let clearing ← topic.partitions.foldlM clearPartition { machine := s, removed := ∅, count := 0 }
  let s ← clearing.machine.reclaimPayloadCandidates project clearing.removed
  return (s, .messagesDiscarded (min clearing.count u32Max))

def createExchange (kind : AmqpExchangeKind)
    (durable passive : Bool) : Result (BrokerStateMachine × BrokerReply) := do
  validName name
  match s.exchanges[(project, name)]? with
  | some existing => do
    require (existing.kind == kind && existing.durable == durable)
      (invalidData "exchange redeclaration is incompatible")
    return (s, .declared)
  | none => do
    require (!passive) (invalidData "passive exchange does not exist")
    return (s.insertExchange (project, name) { kind, durable }, .declared)

def createQueue (kind : QueueKind) (durable passive : Bool)
    (deadLetterExchange deadLetterRoutingKey : Option String)
    (retention : RetentionPolicy) (exclusiveOwner : Option Uuid) (autoDelete : Bool) :
    Result (BrokerStateMachine × BrokerReply) := do
  validName name
  retention.validate
  match s.queues[(project, name)]? with
  | some existing => do
    validateRedeclaration existing kind durable exclusiveOwner
    return (s, .declared)
  | none => do
    require (!passive) (invalidData "passive queue does not exist")
    s.validateDeadLetterExchange project deadLetterExchange
    let (s, stream) ← s.allocateStream
    let queue : Queue :=
      { stream
        kind
        durable
        deadLetterExchange
        deadLetterRoutingKey
        retention
        exclusiveOwner
        autoDelete }
    return (s.insertQueue (project, name) queue, .declared)

variable (queue : String) (owner : Uuid) (consumer : Nat)

def registerConsumer : Result (BrokerStateMachine × BrokerReply) := do
  let declared ← orElse s.queues[(project, queue)]? (invalidData "queue does not exist")
  require (declared.exclusiveOwner.all (· == owner))
    (new .authorizationDenied "queue is exclusive to another connection")
  let rows := s.queueConsumers[(project, queue)]?.getD ∅
  let s := s.commitConsumers (project, queue) (rows.insert (owner, consumer))
    [.consumerRow (project, queue) (owner, consumer) (some ())]
  return (s, .declared)

def removeConsumer (name : Name) (owner : Uuid) (consumer : Nat) : BrokerStateMachine × Bool :=
  match s.queueConsumers[name]? with
  | none => (s, false)
  | some rows =>
    let kept := rows.erase (owner, consumer)
    let s := s.commitConsumers name kept
      (removal (rows.contains (owner, consumer)) (.consumerRow name (owner, consumer) none))
    if kept.isEmpty then (s.removeConsumers name, true) else (s, false)

def unregisterConsumer : Result (BrokerStateMachine × BrokerReply) := do
  let (s, emptied) := s.removeConsumer (project, queue) owner consumer
  if emptied && s.queueIsAutoDelete project queue then do
    let s ← s.dropQueue project queue
    return (s, .declared)
  else return (s, .declared)

variable (owner : Uuid)

def consumedQueues : List String := (s.queueConsumers.toList.filter fun (name, consumers) =>
    name.1 == project && consumers.toList.any fun (holder, _) =>
      holder == owner).map fun (name, _) => name.2

/-- Takes every consumer of a connection off a queue; collects the queue when that was its last use. -/
def releaseConsumers (progress : BrokerStateMachine × ExtTreeSet String)
    (queue : String) : BrokerStateMachine × ExtTreeSet String :=
  let (s, collect) := progress
  match s.queueConsumers[(project, queue)]? with
  | none => (s, collect)
  | some rows =>
    let kept := rows.filter fun (holder, _) => holder != owner
    let changes := (rows.toList.filter fun (holder, _) => holder == owner).map fun row =>
      Event.consumerRow (project, queue) row none
    if kept.isEmpty then
      let s := s.removeEditedConsumers (project, queue) changes
      (s, if s.queueIsAutoDelete project queue then collect.insert queue else collect)
    else (s.commitConsumers (project, queue) kept changes, collect)

def exclusiveQueues : List String := (s.queues.toList.filter fun (name, queue) =>
    name.1 == project && queue.exclusiveOwner == some owner).map fun (name, _) => name.2

def releaseConnection : Result (BrokerStateMachine × BrokerReply) := do
  let (s, collect) := (s.consumedQueues project owner).foldl (releaseConsumers project owner) (s, ∅)
  let collect := collect.insertMany (s.exclusiveQueues project owner)
  let s ← collect.toList.foldlM (fun s queue => s.dropQueue project queue) s
  return (s, .deleted)

def bindQueue (exchange queue routingKey : String) : Result (BrokerStateMachine × BrokerReply) := do
  validRoutingKey routingKey
  require (s.exchanges.contains (project, exchange) && s.queues.contains (project, queue))
    (invalidData "binding endpoint does not exist")
  let bound := s.bindings.toList.any fun (key, binding) =>
    key.1 == project && key.2.1 == exchange && binding.queue == queue &&
      binding.routingKey == routingKey
  let s := bif bound then s else s.pushBinding project { exchange, queue, routingKey }
  return (s, .declared)

def unbindQueue (exchange queue routingKey : String) : Result (BrokerStateMachine × BrokerReply) := do
  validRoutingKey routingKey
  require (s.bindingExists project exchange queue routingKey) (invalidData "binding does not exist")
  let s := s.retainBindings fun key binding =>
    !(key.1 == project && binding.exchange == exchange && binding.queue == queue &&
      binding.routingKey == routingKey)
  return (s, .unbound)

def purgeQueue : Result (BrokerStateMachine × BrokerReply) := do
  let queue ← orElse s.queues[(project, name)]? (invalidData "queue does not exist")
  let (s, discarded) := s.discardReadyRecords queue.stream
  return (s, .messagesDiscarded discarded)

def deleteExchange (ifUnused : Bool) : Result (BrokerStateMachine × BrokerReply) := do
  require (s.exchanges.contains (project, name)) (invalidData "exchange does not exist")
  require (!(ifUnused && s.exchangeHasBindings project name))
    (invalidData "exchange still has bindings")
  let s := (s.removeExchange (project, name)).retainBindings fun key binding =>
    !(key.1 == project && binding.exchange == name)
  return (s, .deleted)

def commitOffset (group topic : String) (partition : Int)
    (offset : Nat) (generation : Option Int) (member : Option String) :
    Result (BrokerStateMachine × BrokerReply) := do
  let _ ← s.partitionStream project topic partition
  let edit ← orElse (s.editGroup (project, group)) (invalidData "consumer group does not exist")
  require (commitAllowed edit.group generation member) generationConflict
  return (s.commitGroup (edit.insertOffset (topic, partition) offset), .offsetCommitted)

def joinedGroup (name : Name) (member : String) : GroupEdit :=
  (s.editGroup name).getD
    { name
      group :=
        { generation := 0, leader := member, members := ∅, protocol := "", assignments := ∅, offsets := ∅ }
      changes := [] }

def joinGroup (group member : String) (sessionTimeoutMs : Nat)
    (resolvedTimeMs : Int) (protocols : Fields) : Result (BrokerStateMachine × BrokerReply) := do
  validName group
  validName member
  validateGroupMember sessionTimeoutMs protocols
  let s ← s.expireGroupMembers project resolvedTimeMs
  let edit := s.joinedGroup (project, group) member
  let changed := membershipChanges edit.group.members member protocols sessionTimeoutMs
  let edit := edit.insertMember member
    { protocols, sessionTimeoutMs, lastHeartbeatMs := resolvedTimeMs }
  let selectedProtocol ← selectGroupProtocol edit.group.members
  if changed || edit.group.protocol != selectedProtocol then do
    require (edit.group.generation + 1 ≤ i32Max) (internal "group generation exhausted")
    let edit := { edit with
      group := { edit.group with
        protocol := selectedProtocol, generation := edit.group.generation + 1 } }
    let edit := edit.clearAssignments
    return (s.commitGroup edit, groupReply edit.group)
  else return (s.commitGroup edit, groupReply edit.group)

def installAssignments (edit : GroupEdit) (assignments : Fields) : GroupEdit :=
  assignments.toList.foldl (fun edit (member, assignment) => edit.insertAssignment member assignment)
    edit.clearAssignments

def syncGroup (group : String) (generation : Int)
    (assignments : Fields) : Result (BrokerStateMachine × BrokerReply) := do
  let edit ← orElse (s.editGroup (project, group)) (invalidData "consumer group does not exist")
  require (edit.group.generation == generation)
    (new .transactionConflict "consumer group generation changed")
  require (assignmentsFit edit.group assignments)
    (invalidData "group sync must install one assignment per member")
  let edit := bif assignments.isEmpty then edit else installAssignments edit assignments
  -- What the leader proposed is replaced by the assignment weighted by lag, when there is one.
  let edit := match s.rebalancedAssignment project edit.group with
    | some balanced => installAssignments edit balanced
    | none => edit
  return (s.commitGroup edit, groupReply edit.group)

def leaveGroup (group member : String) : Result (BrokerStateMachine × BrokerReply) := do
  let edit ← orElse (s.editGroup (project, group)) (invalidData "consumer group does not exist")
  if edit.group.members.contains member then do
    let edit := (edit.removeMember member).clearAssignments
    require (edit.group.generation + 1 ≤ i32Max) (internal "group generation exhausted")
    let leader := if edit.group.leader = member then leastMember edit.group.members
      else edit.group.leader
    let edit := { edit with
      group := { edit.group with generation := edit.group.generation + 1, leader } }
    return (s.commitGroup edit, groupReply edit.group)
  else return (s.commitGroup edit, groupReply edit.group)

def heartbeatGroup (group : String) (generation : Int)
    (member : String) (resolvedTimeMs : Int) : Result (BrokerStateMachine × BrokerReply) := do
  let s ← s.expireGroupMembers project resolvedTimeMs
  let edit ← orElse (s.editGroup (project, group)) (invalidData "consumer group does not exist")
  require (edit.group.generation == generation)
    (new .transactionConflict "consumer group generation changed")
  let record ← orElse edit.group.members[member]?
      (new .transactionConflict "consumer group member is unknown")
  let edit := edit.insertMember member { record with lastHeartbeatMs := resolvedTimeMs }
  return (s.commitGroup edit, .acknowledged)

def retainProject (resolvedTimeMs : Int) : Result (BrokerStateMachine × BrokerReply) := do
  let s ← s.expireGroupMembers project resolvedTimeMs
  let s := s.expireDeliveryLeases project resolvedTimeMs
  let (s, removedReferences, candidates) ← s.retain project resolvedTimeMs
  let before := s.payloads.size
  let s ← s.reclaimPayloadCandidates project candidates
  return (s, .retained removedReferences (before - s.payloads.size))

variable (runtime : Runtime) (s : BrokerStateMachine)

def dispatch : BrokerCommand → Result (BrokerStateMachine × BrokerReply)
  | .createTopic project name partitions retention => s.createTopic project name partitions retention
  | .setTopicRetention project name retention => do
    retention.validate
    let topic ← orElse s.topics[(project, name)]? (invalidData "topic does not exist")
    return (s.insertTopic (project, name) { topic with retention }, .declared)
  | .deleteTopic project name => s.deleteTopic project name
  | .clearTopic project name => s.clearTopic project name
  | .createExchange project name kind durable passive =>
    s.createExchange project name kind durable passive
  | .createQueue project name kind durable passive deadLetterExchange deadLetterRoutingKey retention
      exclusiveOwner autoDelete =>
      s.createQueue project name kind durable passive deadLetterExchange deadLetterRoutingKey retention
        exclusiveOwner autoDelete
  | .setQueueRetention project name retention => do
    retention.validate
    let queue ← orElse s.queues[(project, name)]? (invalidData "queue does not exist")
    return (s.insertQueue (project, name) { queue with retention }, .declared)
  | .registerConsumer project queue owner consumer => s.registerConsumer project queue owner consumer
  | .unregisterConsumer project queue owner consumer =>
    s.unregisterConsumer project queue owner consumer
  | .releaseConnection project owner => s.releaseConnection project owner
  | .bindQueue project exchange queue routingKey => s.bindQueue project exchange queue routingKey
  | .unbindQueue project exchange queue routingKey => s.unbindQueue project exchange queue routingKey
  | .purgeQueue project name => s.purgeQueue project name
  | .deleteQueue project name ifUnused ifEmpty => do
    let ready ← s.queueDeletionCounts project name ifUnused ifEmpty
    let s ← s.dropQueue project name
    return (s, .messagesDiscarded ready)
  | .deleteExchange project name ifUnused => s.deleteExchange project name ifUnused
  | .publishKafkaBatch project topic partition resolvedTimeMs records =>
    publishKafkaBatch runtime s project topic partition resolvedTimeMs records
  | .publishAmqp project exchange routingKey _ resolvedTimeMs properties headers payload =>
    publishAmqp runtime s project exchange routingKey resolvedTimeMs properties headers payload
  | .publishAmqpBatch project resolvedTimeMs records =>
    publishAmqpBatch runtime s project resolvedTimeMs records
  | .publishAmqpUniformBatch project resolvedTimeMs exchange routingKey _ properties headers payloads =>
    publishAmqpUniformBatch runtime s project resolvedTimeMs exchange routingKey properties
      headers payloads
  | .commitOffset project group topic partition offset generation member =>
    s.commitOffset project group topic partition offset generation member
  | .joinGroup project group member sessionTimeoutMs resolvedTimeMs protocols =>
    s.joinGroup project group member sessionTimeoutMs resolvedTimeMs protocols
  | .syncGroup project group generation assignments => s.syncGroup project group generation assignments
  | .leaveGroup project group member => s.leaveGroup project group member
  | .heartbeatGroup project group generation member resolvedTimeMs =>
    s.heartbeatGroup project group generation member resolvedTimeMs
  | .ack project queue owner consumer deliveryTag multiple => do
    let s ← s.settle project queue owner consumer deliveryTag multiple true false
    return (s, .acknowledged)
  | .nack project queue owner consumer deliveryTag multiple requeue => do
    let s ← s.settle project queue owner consumer deliveryTag multiple false requeue
    return (s, .acknowledged)
  | .deliverQueue project queue offset maximum owner consumer automaticAck resolvedTimeMs => do
    let (s, deliveries) ← fetchQueue runtime s project queue offset maximum owner consumer automaticAck
      resolvedTimeMs
    return (s, .deliveries deliveries)
  | .renewDeliveryLease project owner resolvedTimeMs => do
    let s ← s.renewDeliveryLease project owner resolvedTimeMs
    return (s, .acknowledged)
  | .releaseDeliveryLease project owner => .ok (s.releaseDeliveryLease project owner, .acknowledged)
  | .retain project resolvedTimeMs => s.retainProject project resolvedTimeMs

def apply (command : BrokerCommand) : Result (BrokerStateMachine × BrokerReply) := do
  s.validateCommand command
  dispatch runtime s command

end BrokerStateMachine

end IronGraph.Broker
