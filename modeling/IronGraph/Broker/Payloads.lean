import IronGraph.Broker.Checks

/-!
Broker payloads in immutable segments: how a published batch is written, and how stored payloads are
read back and checked against their canonical records. The segment store, the digest and the record
encoding are a parameter.
-/

namespace IronGraph.Broker

open Std Outcome Error

structure Runtime where
  hash : Bytes → Digest
  encodeCompact : PayloadSegmentRecord → Result Bytes
  decodeCompact : Bytes → Result PayloadSegmentRecord
  writeImmutable : SegmentFamily → Option ProjectId → List SegmentRecord →
    Result (SegmentDescriptor × List SegmentRecordLocation)
  readRecordAt : SegmentDescriptor → SegmentRecordLocation → Result SegmentRecord

def brokerPayloadSegmentKind : UInt16 := 1
def brokerRawAmqpPayloadSegmentKind : UInt16 := 2
def brokerRawKafkaPayloadSegmentKind : UInt16 := 3
def brokerPayloadRecordMagic : Bytes := "IGP2".toUTF8.toList

def fieldMapBytes (fields : Fields) : Nat := fields.toList.foldl (fun total (key, value) =>
      saturatingAdd (saturatingAdd (saturatingAdd total 16) key.utf8ByteSize) value.length) 0

def ingressAccountedBytes : IngressMetadata → Nat
  | .kafka _ key headers _ =>
    saturatingAdd (saturatingAdd 64 (key.elim 0 List.length)) (fieldMapBytes headers)
  | .amqp exchange routingKey properties headers _ =>
    saturatingAdd (saturatingAdd (saturatingAdd (saturatingAdd 64 exchange.utf8ByteSize)
      routingKey.utf8ByteSize) (fieldMapBytes properties))
      (fieldMapBytes headers)

def IngressMetadata.isAmqp : IngressMetadata → Bool
  | .amqp .. => true
  | .kafka .. => false

def KafkaBatchRecord.ingress (record : KafkaBatchRecord) : IngressMetadata :=
  .kafka record.createTimeMs record.key record.headers record.valueIsNull

def AmqpBatchRecord.ingress (record : AmqpBatchRecord) : IngressMetadata :=
  .amqp record.exchange record.routingKey record.properties record.headers 0

def kafkaTime (ingress : IngressMetadata) (resolvedTimeMs : Int) : Option Int := match ingress with
  | .kafka createTimeMs _ _ _ => some (createTimeMs.getD resolvedTimeMs)
  | .amqp .. => none

variable (runtime : Runtime) (project : ProjectId)

def encodePayloadSegmentRecord (resolvedTimeMs : Int)
    (pending : PendingPayloadRecord) : Result SegmentRecord := do
  let encoded ← runtime.encodeCompact
    { project
      id := pending.id
      resolvedTimeMs
      ingress := pending.ingress
      payload := pending.payload
      checksum := runtime.hash pending.payload }
  return { kind := brokerPayloadSegmentKind, payload := brokerPayloadRecordMagic ++ encoded }

def decodePayloadSegmentRecord (encoded : Bytes) : Result PayloadSegmentRecord := do
  let payload ← orElse (brokerPayloadRecordMagic.isPrefixOf? encoded)
    (corrupt "broker payload record magic is invalid")
  runtime.decodeCompact payload

def writePayloadSegmentBatch (resolvedTimeMs : Int)
    (pending : List PendingPayloadRecord) :
    Result (SegmentDescriptor × List SegmentRecordLocation) := do
  require (!pending.isEmpty) (invalidData "broker payload segment batch is empty")
  let encoded ← pending.mapM (encodePayloadSegmentRecord runtime project resolvedTimeMs)
  runtime.writeImmutable .brokerPayload (some project) encoded

def writeRawAmqpPayloadSegmentBatch
    (pending : List PendingPayloadRecord) :
    Result (SegmentDescriptor × List SegmentRecordLocation) := do
  require (!pending.isEmpty && pending.all fun record => record.ingress.isAmqp)
    (invalidData "raw AMQP payload segment batch is empty or heterogeneous")
  runtime.writeImmutable .brokerPayload (some project)
    (pending.map fun record => { kind := brokerRawAmqpPayloadSegmentKind, payload := record.payload })

variable (records : List KafkaBatchRecord)

def kafkaBatchCanShareIngress : Bool := !records.isEmpty && records.all fun record =>
    record.createTimeMs.isSome && record.key.isNone && record.headers.isEmpty && !record.valueIsNull

def uniquePayloads : List Bytes := records.foldl
    (fun unique record => if unique.contains record.payload then unique
      else unique ++ [record.payload]) []

def writeRawKafkaPayloadSegmentBatch :
    Result (SegmentDescriptor × List SegmentRecordLocation × List Digest) := do
  require (kafkaBatchCanShareIngress records)
    (invalidData "raw Kafka payload segment batch is empty or carries per-record envelope data")
  let first ← orElse records.head? (internal "validated Kafka batch disappeared")
  if records.tail.all fun record => record.payload == first.payload then do
    let (descriptor, uniqueLocations) ← runtime.writeImmutable .brokerPayload (some project)
      [{ kind := brokerRawKafkaPayloadSegmentKind, payload := first.payload }]
    let location ← orElse uniqueLocations.head? (internal "interned Kafka payload location disappeared")
    return (descriptor, records.map fun _ => location, records.map fun _ => runtime.hash first.payload)
  else do
    let unique := uniquePayloads records
    let payloadIndices := records.map fun record => unique.idxOf record.payload
    let (descriptor, uniqueLocations) ← runtime.writeImmutable .brokerPayload (some project)
      (unique.map fun payload => { kind := brokerRawKafkaPayloadSegmentKind, payload })
    let uniqueChecksums := unique.map runtime.hash
    let locations ← payloadIndices.mapM fun index =>
      orElse uniqueLocations[index]? (internal "unique Kafka payload location disappeared")
    let checksums ← payloadIndices.mapM fun index =>
      orElse uniqueChecksums[index]? (internal "unique Kafka payload checksum disappeared")
    return (descriptor, locations, checksums)

def materializeStoredPayload (record : SegmentRecord) (stored : StoredPayloadRecord)
    (segment : BrokerPayloadSegment) : Result PayloadSegmentRecord :=
  if record.kind = brokerPayloadSegmentKind then decodePayloadSegmentRecord runtime record.payload
  else if record.kind = brokerRawAmqpPayloadSegmentKind then do
    let ingress ← orElse segment.sharedAmqpIngress
      (corrupt "raw AMQP payload segment is missing its shared ingress metadata")
    require ingress.isAmqp (corrupt "raw AMQP payload segment carries non-AMQP ingress metadata")
    let project ← orElse segment.descriptor.projectId
        (corrupt "raw AMQP payload segment has no project")
    return {
      project
      id := stored.id
      resolvedTimeMs := stored.resolvedTimeMs
      ingress
      payload := record.payload
      checksum := stored.checksum }
  else if record.kind = brokerRawKafkaPayloadSegmentKind then do
    let ingress ← orElse segment.sharedKafkaIngress
      (corrupt "raw Kafka payload segment is missing its shared ingress metadata")
    match ingress with
    | .amqp .. => .error (corrupt "raw Kafka payload segment carries non-Kafka ingress metadata")
    | .kafka _ key headers valueIsNull => do
      require (!(key.isSome || !headers.isEmpty || valueIsNull))
        (corrupt "raw Kafka payload segment carries a non-uniform envelope")
      let project ← orElse segment.descriptor.projectId
          (corrupt "raw Kafka payload segment has no project")
      return {
        project
        id := stored.id
        resolvedTimeMs := stored.resolvedTimeMs
        ingress := .kafka stored.kafkaTimeMs none ∅ false
        payload := record.payload
        checksum := stored.checksum }
  else .error (corrupt "broker payload segment has an unknown record kind")

def validateLoadedPayload (stored : StoredPayloadRecord) (descriptor : SegmentDescriptor)
    (payload : PayloadSegmentRecord) : Result Unit :=
  require (descriptor.family == .brokerPayload && descriptor.projectId == some payload.project &&
      payload.id == stored.id && payload.resolvedTimeMs == stored.resolvedTimeMs &&
      payload.payload.length == stored.payloadBytes && stored.location.bytes == stored.retainedBytes &&
      payload.checksum == stored.checksum &&
      kafkaTime payload.ingress payload.resolvedTimeMs == stored.kafkaTimeMs &&
      runtime.hash payload.payload == payload.checksum)
    (corrupt "broker payload segment differs from its canonical reference")

def requestPayload (requested : List StoredPayloadRecord) (stored : StoredPayloadRecord) :
    Result (List StoredPayloadRecord) := do
  require (!(requested.any fun earlier => earlier.id == stored.id))
    (internal "broker payload request repeats a canonical message ID")
  return requested ++ [stored]

variable (segments : ExtTreeMap Nat BrokerPayloadSegment)

def loadPayload
    (loaded : ExtTreeMap MessageId PayloadRecord) (stored : StoredPayloadRecord) :
    Result (ExtTreeMap MessageId PayloadRecord) := do
  let segment ← orElse segments[stored.segment]?
    (new .retentionExpired "broker payload segment was retired during the read")
  let record ← runtime.readRecordAt segment.descriptor stored.location
  let payload ← materializeStoredPayload runtime record stored segment
  validateLoadedPayload runtime stored segment.descriptor payload
  require (!loaded.contains payload.id) (corrupt "broker payload segment repeats a message ID")
  return loaded.insert payload.id
    { id := payload.id
      resolvedTimeMs := payload.resolvedTimeMs
      ingress := payload.ingress
      payload := payload.payload
      checksum := payload.checksum }

def storedBefore (left right : StoredPayloadRecord) : Bool := decide (left.segment < right.segment) ||
    (left.segment == right.segment && decide (left.location.offset ≤ right.location.offset))

def loadPayloads (stored : List StoredPayloadRecord) : Result (ExtTreeMap MessageId PayloadRecord) := do
  let requested ← stored.foldlM requestPayload []
  let loaded ← (requested.insertionSort fun left right => storedBefore left right = true).foldlM
    (loadPayload runtime segments) ∅
  require (loaded.size == requested.length && requested.all fun stored => loaded.contains stored.id)
    (corrupt "broker payload segment omitted a canonical message ID")
  return loaded

def deliveryRoute (payload : PayloadRecord) (exchange routingKey : Option String) : String × String :=
  match payload.ingress with
  | .amqp originalExchange originalRoutingKey _ _ _ =>
    (exchange.getD originalExchange, routingKey.getD originalRoutingKey)
  | .kafka .. => (exchange.getD "", routingKey.getD "")

end IronGraph.Broker
