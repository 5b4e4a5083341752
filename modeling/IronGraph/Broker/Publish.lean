import IronGraph.Broker.ValidateCommand

/-!
Publication: identifiers and payload segments are allocated, and references to the new messages are
appended to the streams they are routed to.
-/

namespace IronGraph.Broker

open Std Outcome Error

namespace BrokerStateMachine

variable (s : BrokerStateMachine)

def allocateStream : Result (BrokerStateMachine × StreamId) := do
  let id ← orElse (checkedSum s.nextStreamId 1) (internal "stream ID exhausted")
  return ({ s with nextStreamId := id }.insertStream id StreamState.empty, id)

variable (descriptor : SegmentDescriptor) (liveRecords : Nat)

def allocatePayloadSegmentWithSharedIngress
    (sharedAmqpIngress sharedKafkaIngress : Option IngressMetadata) :
    Result (BrokerStateMachine × Nat) := do
  require (liveRecords != 0 && descriptor.family == .brokerPayload)
    (internal "broker payload segment metadata is invalid")
  let sharedIngressBytes :=
    ((sharedAmqpIngress <|> sharedKafkaIngress).map ingressAccountedBytes).getD 0
  let id ← orElse (checkedSum s.nextPayloadSegmentId 1) (internal "broker payload segment ID exhausted")
  require (!s.payloadSegments.contains id) (internal "broker payload segment ID was reused")
  let segment : BrokerPayloadSegment :=
    { id, descriptor, liveRecords, sharedAmqpIngress, sharedKafkaIngress, sharedIngressBytes }
  return ({ s with nextPayloadSegmentId := id }.insertSegment id segment, id)

def allocatePayloadSegment (sharedAmqpIngress : Option IngressMetadata) :
    Result (BrokerStateMachine × Nat) :=
  s.allocatePayloadSegmentWithSharedIngress descriptor liveRecords sharedAmqpIngress none

variable (id : MessageId) (timestampMs : Int) (payloadLen : Nat) (checksum : Digest)
  (kafkaTimeMs : Option Int) (segment : Nat) (location : SegmentRecordLocation)

def storedPayload : StoredPayloadRecord :=
  { id
    resolvedTimeMs := timestampMs
    segment
    location
    retainedBytes := location.bytes
    payloadBytes := payloadLen
    checksum
    kafkaTimeMs }

def allocateStoredMessageInSegment : Result (BrokerStateMachine × MessageId) := do
  require (payloadLen ≤ maxPayloadBytes) (new .backpressure "broker payload exceeds 256 MiB")
  let nextMessageId ← orElse (checkedSum s.nextMessageId 1) (internal "message ID exhausted")
  require (id == nextMessageId)
    (internal "prepared broker message ID differs from the allocator cursor")
  let owner ← orElse s.payloadSegments[segment]? (internal "broker payload segment is missing")
  require
    (payloadLen ≤ location.bytes &&
      (checkedSum location.offset location.bytes).any fun bound =>
        decide (bound ≤ owner.descriptor.bytes))
    (internal "broker payload record extent differs from its segment")
  require (!s.payloads.contains id) (internal "broker message append is not monotonic")
  let stored := storedPayload id timestampMs payloadLen checksum kafkaTimeMs segment location
  return ({ s with nextMessageId }.insertPayload id stored, id)

def allocateMessageInSegment (runtime : Runtime) (s : BrokerStateMachine) (timestampMs : Int)
    (segment : Nat)
    (pending : PendingPayloadRecord) (location : SegmentRecordLocation) :
    Result (BrokerStateMachine × MessageId) :=
  s.allocateStoredMessageInSegment pending.id timestampMs pending.payload.length
    (runtime.hash pending.payload) (kafkaTime pending.ingress timestampMs) segment location

def allocateMessages (runtime : Runtime) (timestampMs : Int) (segment : Nat) :
    List (PendingPayloadRecord × SegmentRecordLocation) → BrokerStateMachine →
      Result (BrokerStateMachine × List MessageId)
  | [], s => .ok (s, [])
  | (pending, location) :: rest, s => do
    let (s, message) ← allocateMessageInSegment runtime s timestampMs segment pending location
    let (s, messages) ← allocateMessages runtime timestampMs segment rest s
    return (s, message :: messages)

def initialReference (offset : Nat) (message : MessageId) : StreamReference :=
  { offset
    message
    delivery := .ready
    redelivered := false
    deathCount := 0
    currentExchange := none
    currentRoutingKey := none }

variable (commonSegment : Option Nat) (commonSharedIngressBytes : Nat)

def batchPayloadBytes (payload : StoredPayloadRecord) : Result Nat :=
  if some payload.segment = commonSegment then
    orElse (checkedSum payload.retainedBytes commonSharedIngressBytes)
      (internal "broker accounted byte length overflow")
  else s.accountedPayloadBytes payload

def batchRetainedBytes (total : Nat) (message : MessageId) : Result Nat := do
  let payload ← orElse s.payloads[message]? (internal "broker batch payload is missing")
  let bytes ← s.batchPayloadBytes commonSegment commonSharedIngressBytes payload
  orElse (checkedSum total bytes) (internal "broker retained byte accounting overflow")

def pushInitialReferences (edit : StreamEdit) (firstOffset : Nat)
    (messages : List MessageId) : StreamEdit :=
  messages.zipIdx.foldl
    (fun edit (message, index) => edit.pushBack (initialReference (firstOffset + index) message)) edit

def appendInitialReferencesBatch (stream : StreamId) (messages : List MessageId) :
    Result (BrokerStateMachine × Nat) := do
  let commonSegment := messages.head?.bind fun message => s.payloads[message]?.map (·.segment)
  let commonSharedIngressBytes :=
    ((commonSegment.bind fun segment => s.payloadSegments[segment]?).map (·.sharedIngressBytes)).getD 0
  let retainedBytes ← messages.foldlM (s.batchRetainedBytes commonSegment commonSharedIngressBytes) 0
  let edit ← orElse (s.editStream stream) (internal "broker stream does not exist")
  let firstOffset := edit.stream.nextOffset
  let nextOffset ← orElse (checkedSum firstOffset messages.length) (internal "broker offset exhausted")
  let nextRetainedBytes ← orElse (checkedSum edit.stream.retainedBytes retainedBytes)
    (internal "broker retained byte accounting overflow")
  let edit := pushInitialReferences edit firstOffset messages
  let edit := { edit with
    stream := { edit.stream with nextOffset := nextOffset, retainedBytes := nextRetainedBytes } }
  return (s.commitStream edit, firstOffset)

def referenceBytes (message : MessageId) : Result Nat := match s.payloads[message]? with
  | none => .ok 0
  | some record => s.accountedPayloadBytes record

def appendReferenceWithRoute (stream : StreamId) (message : MessageId)
    (currentExchange currentRoutingKey : Option String) (deathCount : Nat) :
    Result (BrokerStateMachine × Nat) := do
  let retainedBytes ← s.referenceBytes message
  let edit ← orElse (s.editStream stream) (internal "broker stream does not exist")
  let offset := edit.stream.nextOffset
  let nextOffset ← orElse (checkedSum offset 1) (internal "broker offset exhausted")
  let nextRetainedBytes ← orElse (checkedSum edit.stream.retainedBytes retainedBytes)
    (internal "broker retained byte accounting overflow")
  let edit := edit.pushBack { initialReference offset message with
    deathCount, currentExchange, currentRoutingKey }
  let edit := { edit with
    stream := { edit.stream with nextOffset := nextOffset, retainedBytes := nextRetainedBytes } }
  return (s.commitStream edit, offset)

def appendToStreams (message : MessageId) (exchange routingKey : Option String) (deathCount : Nat) :
    List StreamId → BrokerStateMachine → Result (BrokerStateMachine × List (StreamId × Nat))
  | [], s => .ok (s, [])
  | stream :: rest, s => do
    let (s, offset) ← s.appendReferenceWithRoute stream message exchange routingKey deathCount
    let (s, offsets) ← appendToStreams message exchange routingKey deathCount rest s
    return (s, (stream, offset) :: offsets)

def pendingRecords (entries : List (IngressMetadata × Bytes)) : Result (List PendingPayloadRecord) :=
  entries.zipIdx.mapM fun ((ingress, payload), index) => do
    let id ← orElse (checkedSum s.nextMessageId (index + 1)) (internal "message ID exhausted")
    return { id, ingress, payload }

def allocateRawKafkaMessages (resolvedTimeMs : Int) (segment : Nat) :
    List (KafkaBatchRecord × SegmentRecordLocation × Digest) → BrokerStateMachine →
      Result (BrokerStateMachine × List MessageId)
  | [], s => .ok (s, [])
  | (record, location, checksum) :: rest, s => do
    let id ← orElse (checkedSum s.nextMessageId 1) (internal "message ID exhausted")
    let createTimeMs ← orElse record.createTimeMs
      (internal "raw Kafka record lost its validated create timestamp")
    let (s, message) ← s.allocateStoredMessageInSegment id resolvedTimeMs record.payload.length checksum
      (some createTimeMs) segment location
    let (s, messages) ← allocateRawKafkaMessages resolvedTimeMs segment rest s
    return (s, message :: messages)

variable (runtime : Runtime) (s : BrokerStateMachine) (project : ProjectId) (stream : StreamId)
  (firstOffset recordCount : Nat) (resolvedTimeMs : Int) (records : List KafkaBatchRecord)

def publishRawKafkaBatch : Result (BrokerStateMachine × BrokerReply) := do
  let (descriptor, locations, checksums) ← writeRawKafkaPayloadSegmentBatch runtime project records
  let sharedIngress : IngressMetadata := .kafka none none ∅ false
  let (s, segment) ← s.allocatePayloadSegmentWithSharedIngress descriptor recordCount none
      (some sharedIngress)
  let (s, messages) ← allocateRawKafkaMessages resolvedTimeMs segment
      (records.zip (locations.zip checksums)) s
  let (s, appendedFirst) ← s.appendInitialReferencesBatch stream messages
  require (appendedFirst == firstOffset)
    (internal "Kafka atomic batch offset changed during raw publication")
  return (s, .kafkaBatchPublished firstOffset recordCount)

def publishKafkaRecords : Result (BrokerStateMachine × BrokerReply) := do
  let pending ← s.pendingRecords (records.map fun record => (record.ingress, record.payload))
  let (descriptor, locations) ← writePayloadSegmentBatch runtime project resolvedTimeMs pending
  let (s, segment) ← s.allocatePayloadSegment descriptor recordCount none
  let (s, messages) ← allocateMessages runtime resolvedTimeMs segment (pending.zip locations) s
  let (s, appendedFirst) ← s.appendInitialReferencesBatch stream messages
  require (appendedFirst == firstOffset)
    (internal "Kafka atomic batch offset changed during publication")
  return (s, .kafkaBatchPublished firstOffset recordCount)

def publishKafkaBatch (topic : String) (partition : Int) (resolvedTimeMs : Int)
    (records : List KafkaBatchRecord) : Result (BrokerStateMachine × BrokerReply) := do
  validateKafkaBatch records
  let stream ← s.partitionStream project topic partition
  require (records.length ≤ u32Max) (invalidData "Kafka partition batch exceeds u32 records")
  let state ← orElse s.streams[stream]? (internal "Kafka partition stream is missing")
  s.validateStreamAppends [stream] records.length
  if kafkaBatchCanShareIngress records then
    publishRawKafkaBatch runtime s project stream state.nextOffset records.length resolvedTimeMs records
  else
    publishKafkaRecords runtime s project stream state.nextOffset records.length resolvedTimeMs records

def publishAmqp
    (exchange routingKey : String) (resolvedTimeMs : Int) (properties headers : Fields)
    (payload : Bytes) : Result (BrokerStateMachine × BrokerReply) := do
  let targets ← s.routedStreams (invalidData "exchange does not exist") project exchange routingKey
  if targets.isEmpty then return (s, .published 0 [])
  else do
    s.validateStreamAppends targets.toList 1
    let ingress : IngressMetadata := .amqp exchange routingKey properties headers 0
    let id ← orElse (checkedSum s.nextMessageId 1) (internal "message ID exhausted")
    let pending : PendingPayloadRecord := { id, ingress, payload }
    let (descriptor, locations) ← writeRawAmqpPayloadSegmentBatch runtime project [pending]
    let location ← orElse locations.getLast?
        (internal "broker payload segment omitted its record extent")
    let (s, segment) ← s.allocatePayloadSegment descriptor 1 (some ingress)
    let (s, message) ← allocateMessageInSegment runtime s resolvedTimeMs segment pending location
    let (s, offsets) ← appendToStreams message (some exchange) (some routingKey) 0 targets.toList s
    return (s, .published message offsets)

def appendInitialToStreams (messages : List MessageId) :
    List StreamId → BrokerStateMachine → Result BrokerStateMachine
  | [], s => .ok s
  | stream :: rest, s => do
    let (s, _) ← s.appendInitialReferencesBatch stream messages
    appendInitialToStreams messages rest s

def publishAmqpUniformBatch (resolvedTimeMs : Int) (exchange routingKey : String)
    (properties headers : Fields)
    (payloads : List Bytes) : Result (BrokerStateMachine × BrokerReply) := do
  validateAmqpUniformBatch properties headers payloads
  let targets ← s.amqpTargets project exchange routingKey
  s.validateStreamAppends targets.toList payloads.length
  if targets.isEmpty then do
    require (payloads.length ≤ u32Max) (internal "AMQP batch record count exceeds u32")
    return (s, .amqpUniformBatchPublished payloads.length false)
  else do
    let ingress : IngressMetadata := .amqp exchange routingKey properties headers 0
    let pending ← s.pendingRecords (payloads.map fun payload => (ingress, payload))
    let (descriptor, locations) ← writeRawAmqpPayloadSegmentBatch runtime project pending
    require (payloads.length ≤ u32Max) (internal "AMQP batch record count exceeds u32")
    let (s, segment) ← s.allocatePayloadSegment descriptor payloads.length (some ingress)
    let (s, messages) ← allocateMessages runtime resolvedTimeMs segment (pending.zip locations) s
    let s ← appendInitialToStreams messages targets.toList s
    return (s, .amqpUniformBatchPublished payloads.length true)

structure RoutedRecord where
  index : Nat
  record : AmqpBatchRecord
  targets : ExtTreeSet StreamId

def routeRecords (s : BrokerStateMachine) (project : ProjectId) :
    List (AmqpBatchRecord × Nat) → ExtTreeMap StreamId Nat →
    Result (List RoutedRecord × ExtTreeMap StreamId Nat)
  | [], counts => .ok ([], counts)
  | (record, index) :: rest, counts => do
    let targets ← s.amqpTargets project record.exchange record.routingKey
    let (routed, counts) ← s.routeRecords project rest (countTargets counts targets.toList)
    return (if targets.isEmpty then routed else { index, record, targets } :: routed, counts)

def sharedIngress (ingress : List IngressMetadata) : Option IngressMetadata :=
  ingress.head?.filter fun first => ingress.tail.all (· == first)

def writeRoutedBatch (runtime : Runtime) (project : ProjectId) (resolvedTimeMs : Int)
    (shared : Option IngressMetadata) (pending : List PendingPayloadRecord) :
    Result (SegmentDescriptor × List SegmentRecordLocation) :=
  if shared.isSome then writeRawAmqpPayloadSegmentBatch runtime project pending
  else writePayloadSegmentBatch runtime project resolvedTimeMs pending

def publishRouted (runtime : Runtime) (resolvedTimeMs : Int) (segment : Nat) :
    List (RoutedRecord × PendingPayloadRecord × SegmentRecordLocation) → List (List (StreamId × Nat)) →
      BrokerStateMachine → Result (BrokerStateMachine × List (List (StreamId × Nat)))
  | [], offsets, s => .ok (s, offsets)
  | (routed, pending, location) :: rest, offsets, s => do
    let (s, message) ← allocateMessageInSegment runtime s resolvedTimeMs segment pending location
    let (s, recordOffsets) ← appendToStreams message (some routed.record.exchange)
      (some routed.record.routingKey) 0 routed.targets.toList s
    publishRouted runtime resolvedTimeMs segment rest (offsets.set routed.index recordOffsets) s

def publishAmqpBatch (resolvedTimeMs : Int)
    (records : List AmqpBatchRecord) : Result (BrokerStateMachine × BrokerReply) := do
  validateAmqpBatch records
  let (routed, counts) ← s.routeRecords project records.zipIdx ∅
  counts.toList.foldlM (fun _ (stream, count) => s.validateStreamAppends [stream] count) ()
  let offsets : List (List (StreamId × Nat)) := records.map fun _ => []
  if routed.isEmpty then return (s, .amqpBatchPublished offsets)
  else do
    let ingress := routed.map fun routed => routed.record.ingress
    let pending ← s.pendingRecords (routed.map fun routed =>
        (routed.record.ingress, routed.record.payload))
    let shared := sharedIngress ingress
    let (descriptor, locations) ← writeRoutedBatch runtime project resolvedTimeMs shared pending
    require (routed.length ≤ u32Max) (internal "AMQP batch record count exceeds u32")
    let (s, segment) ← s.allocatePayloadSegment descriptor routed.length shared
    let (s, offsets) ← publishRouted runtime resolvedTimeMs segment
        (routed.zip (pending.zip locations)) offsets s
    return (s, .amqpBatchPublished offsets)

end BrokerStateMachine

end IronGraph.Broker
