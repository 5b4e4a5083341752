import IronGraph.Broker.Payloads

/-!
The checks a command must pass before it is ordered: every command-dependent semantic check, made
against the canonical state without changing it.
-/

namespace IronGraph.Broker

open Std Outcome ExtTreeSet Error

def DeliveryState.ownedBy (owner : Uuid) : DeliveryState → Bool
  | .unacked candidate _ _ => candidate == owner
  | _ => false

def DeliveryState.isUnacked : DeliveryState → Bool
  | .unacked .. => true
  | _ => false

def StreamReference.settledBy (owner : Uuid) (consumer deliveryTag : Nat) (multiple : Bool)
    (reference : StreamReference) : Bool :=
  match reference.delivery with
  | .unacked candidate candidateConsumer tag =>
    candidate == owner && candidateConsumer == consumer &&
      bif multiple then decide (tag ≤ deliveryTag) else tag == deliveryTag
  | _ => false

namespace BrokerStateMachine

variable (s : BrokerStateMachine) (project : ProjectId)

def partitionStream (topic : String) (partition : Int) : Result StreamId := do
  require (0 ≤ partition) (invalidData "partition must be non-negative")
  orElse (s.topics[(project, topic)]?.bind fun topic => topic.partitions[partition.toNat]?)
    (invalidData "topic partition does not exist")

def accountedPayloadBytes (payload : StoredPayloadRecord) : Result Nat := do
  let segment ← orElse s.payloadSegments[payload.segment]?
    (new .retentionExpired "broker payload segment was retired during the read")
  orElse (checkedSum payload.retainedBytes segment.sharedIngressBytes)
    (internal "broker accounted byte length overflow")

def validateStreamAppend (count : Nat) (_ : Unit) (id : StreamId) : Result Unit := do
  let stream ← orElse s.streams[id]? (internal "broker stream does not exist")
  let _ ← orElse (checkedSum stream.nextOffset count) (internal "broker offset exhausted")
  return ()

def validateStreamAppends (streams : List StreamId) (count : Nat) : Result Unit := do
  let _ ← orElse (checkedSum s.nextMessageId count) (internal "message ID exhausted")
  streams.foldlM (s.validateStreamAppend count) ()

def boundStream (exchange : String) (kind : AmqpExchangeKind)
    (routingKey : String) (entry : BindingKey × Binding) : Option StreamId :=
  if entry.1.1 == project && entry.1.2.1 == exchange && routeMatches kind entry.2.routingKey routingKey then
    s.queues[(project, entry.2.queue)]?.map (·.stream)
  else none

/-- The streams a message is routed to; the default exchange routes to the queue named by the key. -/
def routedStreams (missing : Error) (project : ProjectId)
    (exchange routingKey : String) : Result (ExtTreeSet StreamId) :=
  if exchange.isEmpty then
    .ok (s.queues[(project, routingKey)]?.elim ∅ fun queue => ofList [queue.stream])
  else do
    let declaration ← orElse s.exchanges[(project, exchange)]? missing
    return ofList (s.bindings.toList.filterMap
      (s.boundStream project exchange declaration.kind routingKey))

def amqpTargets (exchange routingKey : String) : Result (ExtTreeSet StreamId) :=
  s.routedStreams (invalidData "exchange does not exist") project exchange routingKey

variable (queue : String) (owner : Uuid) (consumer deliveryTag : Nat) (multiple : Bool)

def validateSettlement : Result Unit := do
  let queue ← orElse s.queues[(project, queue)]? (invalidData "queue does not exist")
  require (queue.kind == .classic)
    (invalidData "stream queues use offsets, not destructive acknowledgements")
  let stream ← orElse s.streams[queue.stream]? (internal "queue stream is missing")
  require (stream.records.items.any (StreamReference.settledBy owner consumer deliveryTag multiple))
    (new .protocolViolation "delivery tag is unknown")

def validateDeadLetterAppend (appends : Nat) (_ : Unit) (target : StreamId) : Result Unit := do
  let stream ← orElse s.streams[target]? (internal "dead-letter stream is missing")
  let _ ← orElse (checkedSum stream.nextOffset appends) (internal "dead-letter offset exhausted")
  return ()

def validateDeadLetterAppends : Result Unit := do
  let queueRecord ← orElse s.queues[(project, queue)]? (invalidData "queue does not exist")
  match queueRecord.deadLetterExchange with
  | none => return ()
  | some exchange => do
    let targets ← s.amqpTargets project exchange (queueRecord.deadLetterRoutingKey.getD "")
    let source ← orElse s.streams[queueRecord.stream]? (internal "queue stream is missing")
    let appends := source.records.items.countP (StreamReference.settledBy owner consumer
      deliveryTag multiple)
    targets.toList.foldlM (s.validateDeadLetterAppend appends) ()

def bindingExists (exchange queue routingKey : String) : Bool :=
  s.bindings.toList.any fun (key, binding) =>
    key.1 == project && binding.exchange == exchange && binding.queue == queue &&
      binding.routingKey == routingKey

def exchangeHasBindings (exchange : String) : Bool :=
  s.bindings.toList.any fun (key, binding) => key.1 == project && binding.exchange == exchange

def queueIsAutoDelete (queue : String) : Bool := s.queues[(project, queue)]?.any (·.autoDelete)

def readyCount (stream : StreamState) : Nat :=
  min (stream.records.items.countP fun record => record.delivery == .ready) u32Max

def queueDeletionCounts (name : String) (ifUnused ifEmpty : Bool) : Result Nat := do
  let queue ← orElse s.queues[(project, name)]? (invalidData "queue does not exist")
  let ready := s.streams[queue.stream]?.elim 0 readyCount
  require (!(ifUnused && s.queueConsumers[(project, name)]?.any fun consumers => !consumers.isEmpty))
    (invalidData "queue is still in use")
  require (!(ifEmpty && ready != 0)) (invalidData "queue is not empty")
  return ready

def resolveOffset (stream : StreamState) : StreamOffset → Result Nat
  | .first => .ok stream.baseOffset
  | .last => .ok (stream.nextOffset - 1)
  | .absolute value => do
    require (stream.baseOffset ≤ value) (new .retentionExpired "stream offset was retained")
    return value
  | .timestamp timestamp =>
    .ok ((stream.records.items.find? fun reference =>
      s.payloads[reference.message]?.any fun payload =>
        decide (timestamp ≤ payload.resolvedTimeMs)).elim
        stream.nextOffset (·.offset))
  | .next => .ok stream.nextOffset

/-- The response budget of a delivery, walked over the references from the resolved offset on. -/
def checkDeliveryBudget (s : BrokerStateMachine) (kind : QueueKind) (maximum : Nat) :
    List StreamReference → Nat → Nat → Result Unit
  | [], _, _ => .ok ()
  | reference :: rest, responseBytes, records =>
    if maximum ≤ records then .ok () else if kind = .classic ∧ reference.delivery ≠ .ready then
      s.checkDeliveryBudget kind maximum rest responseBytes records
    else do
      let payload ← orElse s.payloads[reference.message]? (internal "broker payload is missing")
      let accounted ← s.accountedPayloadBytes payload
      let nextResponseBytes ← orElse ((checkedSum responseBytes accounted).bind fun bytes =>
          checkedSum bytes brokerDeliveryEnvelopeBytes)
        (internal "delivery response size overflow")
      if maxBrokerDeliveryResultBytes < nextResponseBytes then
        require (records != 0)
          (new .resultBudgetExceeded "delivery response exceeds the durable result bound")
      else s.checkDeliveryBudget kind maximum rest nextResponseBytes (records + 1)

def generationConflict : Error := new .transactionConflict "consumer group generation or member changed"

variable (group : GroupState)

def commitAllowed (generation : Option Int) (member : Option String) : Bool :=
  match generation, member with
  | some generation, some member => generation == group.generation && group.members.contains member
  | none, none => true
  | _, _ => false

def unexpiredMembers (resolvedTimeMs : Int) : ExtTreeMap String GroupMember :=
  group.members.filter fun _ member => !memberExpired resolvedTimeMs member

def membershipChanges (members : ExtTreeMap String GroupMember) (member : String) (protocols : Fields)
    (sessionTimeoutMs : Nat) : Bool :=
  members[member]?.all fun existing =>
    existing.protocols != protocols || existing.sessionTimeoutMs != sessionTimeoutMs

def assignmentsFit (assignments : Fields) : Bool := assignments.isEmpty ||
    (assignments.size == group.members.size && assignments.keys.all group.members.contains)

def countTargets (counts : ExtTreeMap StreamId Nat) (targets : List StreamId) :
    ExtTreeMap StreamId Nat :=
  targets.foldl (fun counts stream => counts.insert stream (counts.getD stream 0 + 1)) counts

def projectStreams : List StreamId :=
  (s.topics.toList.filter fun (name, _) => name.1 == project).flatMap (fun (_, topic) =>
    topic.partitions) ++ (s.queues.toList.filter fun (name, _) => name.1 == project).map fun (_,
      queue) => queue.stream

def validateJoin (member : String) (sessionTimeoutMs : Nat) (resolvedTimeMs : Int)
    (protocols : Fields) : Result Unit := do
  let candidate := (unexpiredMembers group resolvedTimeMs).insert member
    { protocols, sessionTimeoutMs, lastHeartbeatMs := 0 }
  let _ ← selectGroupProtocol candidate
  require (!membershipChanges group.members member protocols sessionTimeoutMs ||
      decide (group.generation + 1 ≤ i32Max))
    (internal "group generation exhausted")

def validateRedeclaration (existing : Queue) (kind : QueueKind) (durable : Bool)
    (exclusiveOwner : Option Uuid) : Result Unit := do
  require (existing.kind == kind && existing.durable == durable)
    (invalidData "queue redeclaration is incompatible")
  require (!(existing.exclusiveOwner.isSome && existing.exclusiveOwner != exclusiveOwner))
    (new .authorizationDenied "queue is exclusive to another connection")

def validateNewQueue (passive : Bool) : Result Unit := do
  require (!passive) (invalidData "passive queue does not exist")
  let _ ← orElse (checkedSum s.nextStreamId 1) (internal "stream ID exhausted")
  return ()

def validateDeadLetterExchange (deadLetterExchange : Option String) : Result Unit := require
    (deadLetterExchange.all fun exchange => exchange.isEmpty ||
      s.exchanges.contains (project, exchange))
    (invalidData "dead-letter exchange does not exist")

def validateQueueName (name : String) (kind : QueueKind)
    (durable passive : Bool) (exclusiveOwner : Option Uuid) : Result Unit :=
  match s.queues[(project, name)]? with
  | some existing => validateRedeclaration existing kind durable exclusiveOwner
  | none => s.validateNewQueue passive

def validateCommand : BrokerCommand → Result Unit
  | .createTopic project name partitions retention => do
    validName name
    retention.validate
    require (partitions != 0 && decide (partitions ≤
      4096)) (invalidData "topic partition count must be 1..=4096")
    match s.topics[(project, name)]? with
    | some existing =>
      require (existing.partitions.length == partitions)
        (invalidData "topic partition count is immutable")
    | none => do
      let _ ← orElse (checkedSum s.nextStreamId partitions) (internal "stream ID exhausted")
      return ()
  | .setTopicRetention project name retention => do
    retention.validate
    require (s.topics.contains (project, name)) (invalidData "topic does not exist")
  | .deleteTopic project name =>
    require (s.topics.contains (project, name)) (invalidData "topic does not exist")
  | .clearTopic project name =>
    require (s.topics.contains (project, name)) (invalidData "topic does not exist")
  | .createExchange project name kind durable passive => do
    validName name
    match s.exchanges[(project, name)]? with
    | some existing =>
      require (existing.kind == kind && existing.durable == durable)
        (invalidData "exchange redeclaration is incompatible")
    | none => require (!passive) (invalidData "passive exchange does not exist")
  | .createQueue project name kind durable passive deadLetterExchange _ retention exclusiveOwner _ => do
    validName name
    retention.validate
    s.validateQueueName project name kind durable passive exclusiveOwner
    s.validateDeadLetterExchange project deadLetterExchange
  | .setQueueRetention project name retention => do
    retention.validate
    require (s.queues.contains (project, name)) (invalidData "queue does not exist")
  | .bindQueue project exchange queue routingKey => do
    validRoutingKey routingKey
    require (s.exchanges.contains (project, exchange) && s.queues.contains (project, queue))
      (invalidData "binding endpoint does not exist")
  | .unbindQueue project exchange queue routingKey => do
    validRoutingKey routingKey
    require (s.bindingExists project exchange queue routingKey) (invalidData "binding does not exist")
  | .purgeQueue project name =>
    require (s.queues.contains (project, name)) (invalidData "queue does not exist")
  | .registerConsumer project queue owner _ => do
    let declared ← orElse s.queues[(project, queue)]? (invalidData "queue does not exist")
    require (declared.exclusiveOwner.all (· == owner))
      (new .authorizationDenied "queue is exclusive to another connection")
  | .unregisterConsumer .. => .ok ()
  | .releaseConnection .. => .ok ()
  | .deleteQueue project name ifUnused ifEmpty => do
    let _ ← s.queueDeletionCounts project name ifUnused ifEmpty
    return ()
  | .deleteExchange project name ifUnused => do
    require (s.exchanges.contains (project, name)) (invalidData "exchange does not exist")
    require (!(ifUnused && s.exchangeHasBindings project name))
      (invalidData "exchange still has bindings")
  | .publishKafkaBatch project topic partition _ records => do
    validateKafkaBatch records
    let stream ← s.partitionStream project topic partition
    s.validateStreamAppends [stream] records.length
  | .publishAmqp project exchange routingKey _ _ _ _ payload => do
    validatePayload payload
    let targets ← s.amqpTargets project exchange routingKey
    s.validateStreamAppends targets.toList 1
  | .publishAmqpBatch project _ records => do
    validateAmqpBatch records
    let counts ← records.foldlM (fun counts record => do
        let targets ← s.amqpTargets project record.exchange record.routingKey
        return countTargets counts targets.toList) ∅
    counts.toList.foldlM (fun _ (stream, count) => s.validateStreamAppends [stream] count) ()
  | .publishAmqpUniformBatch project _ exchange routingKey _ properties headers payloads => do
    validateAmqpUniformBatch properties headers payloads
    let targets ← s.amqpTargets project exchange routingKey
    s.validateStreamAppends targets.toList payloads.length
  | .commitOffset project group topic partition offset generation member => do
    let stream ← s.partitionStream project topic partition
    let state ← orElse s.streams[stream]? (internal "topic partition stream is missing")
    require (offset ≤ state.nextOffset) (invalidData "committed offset exceeds the partition log end")
    let group ← orElse s.groups[(project, group)]? (invalidData "consumer group does not exist")
    require (commitAllowed group generation member) generationConflict
  | .joinGroup project group member sessionTimeoutMs resolvedTimeMs protocols => do
    validName group
    validName member
    validateGroupMember sessionTimeoutMs protocols
    match s.groups[(project, group)]? with
    | some state => validateJoin state member sessionTimeoutMs resolvedTimeMs protocols
    | none => return ()
  | .syncGroup project group generation assignments => do
    let state ← orElse s.groups[(project, group)]? (invalidData "consumer group does not exist")
    require (state.generation == generation)
      (new .transactionConflict "consumer group generation changed")
    require (assignmentsFit state assignments)
      (invalidData "group sync must install one assignment per member")
  | .leaveGroup project group _ =>
    require (s.groups.contains (project, group)) (invalidData "consumer group does not exist")
  | .heartbeatGroup project group generation member resolvedTimeMs => do
    let state ← orElse s.groups[(project, group)]? (invalidData "consumer group does not exist")
    let expiredMemberExists := state.members.values.any (memberExpired resolvedTimeMs)
    require (!(expiredMemberExists || state.generation != generation ||
        !(state.members[member]?.any fun member => !memberExpired resolvedTimeMs member)))
      generationConflict
  | .ack project queue owner consumer deliveryTag multiple =>
    s.validateSettlement project queue owner consumer deliveryTag multiple
  | .nack project queue owner consumer deliveryTag multiple requeue => do
    s.validateSettlement project queue owner consumer deliveryTag multiple
    if requeue then return ()
    else s.validateDeadLetterAppends project queue owner consumer deliveryTag multiple
  | .deliverQueue project queue offset maximum owner _ _ _ => do
    require (owner != 0) (invalidData "delivery lease owner is invalid")
    require (maximum != 0 && decide (maximum ≤
      65536)) (invalidData "delivery maximum must be 1..=65536")
    let queue ← orElse s.queues[(project, queue)]? (invalidData "queue does not exist")
    let stream ← orElse s.streams[queue.stream]? (internal "queue stream is missing")
    let start ← s.resolveOffset stream offset
    s.checkDeliveryBudget queue.kind maximum
      (stream.records.items.filter fun record => decide (start ≤ record.offset)) 0 0
  | .renewDeliveryLease _ owner _ =>
    require (owner != 0) (invalidData "delivery lease owner is invalid")
  | .releaseDeliveryLease _ owner =>
    require (owner != 0) (invalidData "delivery lease owner is invalid")
  | .retain project _ =>
    require ((s.projectStreams project).all s.streams.contains) (internal "retention stream is missing")

end BrokerStateMachine

end IronGraph.Broker
