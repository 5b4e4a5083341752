import IronGraph.Broker.State

/-!
The stateless checks of the broker: names, routing keys, retention bounds, batch sizes, group
members, and the matching of a routing key against a binding.
-/

namespace IronGraph.Broker

open Std Outcome Error

def maxBrokerBatchBytes : Nat := 128 * 1024 * 1024
def maxBrokerDeliveryResultBytes : Nat := 16 * 1024 * 1024
def brokerDeliveryEnvelopeBytes : Nat := 1024
def deliveryLeaseMillis : Int := 120000
def maxPayloadBytes : Nat := 256 * 1024 * 1024

def i64Max : Int := 9223372036854775807
def i64Min : Int := -9223372036854775808
def i32Max : Int := 2147483647
def u32Max : Nat := 4294967295

def saturatingSub (left right : Int) : Int := max i64Min (min i64Max (left - right))

def checkedAddTime (left right : Int) : Option Int :=
  if left + right ≤ i64Max then some (left + right) else none

def checkedSum (left right : Nat) : Option Nat :=
  if left + right < u64Limit then some (left + right) else none

def isControlByte (byte : UInt8) : Bool := byte == 0 || decide (byte.toNat < 32) || byte == 127

def validName (name : String) : Result Unit :=
  require (!(name.isEmpty || decide (255 < name.utf8ByteSize) || name.toUTF8.toList.any isControlByte))
    (invalidData "broker name is empty, oversized, or contains control bytes")

def validRoutingKey (key : String) : Result Unit :=
  require (!(decide (255 < key.utf8ByteSize) || key.toUTF8.toList.any isControlByte))
    (invalidData "broker routing key is oversized or contains control bytes")

def RetentionPolicy.validate (policy : RetentionPolicy) : Result Unit := do
  require (!(policy.maxAgeMs == some 0 || policy.maxBytes == some 0))
    (invalidData "retention bounds must be positive when present")
  require (!(policy.maxAgeMs.any fun maximum => decide (i64Max < maximum)))
    (invalidData "retention age exceeds the supported timestamp range")

def validatePayload (payload : Bytes) : Result Unit :=
  require (payload.length ≤ maxPayloadBytes) (new .backpressure "broker payload exceeds 256 MiB")

def fieldsBytes (fields : Fields) : Nat :=
  (fields.toList.map fun (key, value) => key.utf8ByteSize + value.length).sum

def kafkaRecordBytes (encodedBytes : Nat) (record : KafkaBatchRecord) : Result Nat := do
  validatePayload record.payload
  require (!(record.headers.toList.any fun (key, value) =>
      key.isEmpty || decide (32767 < key.utf8ByteSize) || decide (maxBrokerBatchBytes < value.length)))
    (invalidData "Kafka record header is invalid")
  let encodedBytes := encodedBytes + record.payload.length + record.key.elim 0 List.length +
    fieldsBytes record.headers
  require (encodedBytes < u64Limit) (new .backpressure "Kafka batch is too large")
  require (encodedBytes ≤ maxBrokerBatchBytes)
    (new .backpressure "Kafka partition batch exceeds the request frame bound")
  return encodedBytes

def validateKafkaBatch (records : List KafkaBatchRecord) : Result Unit := do
  require (!records.isEmpty && decide (records.length ≤ 1000000))
    (invalidData "Kafka partition batch must contain 1..=1000000 records")
  let _ ← records.foldlM kafkaRecordBytes 0
  return ()

def amqpRecordBytes (encodedBytes : Nat) (record : AmqpBatchRecord) : Result Nat := do
  validatePayload record.payload
  let encodedBytes := encodedBytes + record.payload.length + fieldsBytes record.properties +
    fieldsBytes record.headers
  require (encodedBytes < u64Limit) (new .backpressure "AMQP batch is too large")
  require (encodedBytes ≤ maxBrokerBatchBytes)
    (new .backpressure "AMQP publish batch exceeds the request frame bound")
  return encodedBytes

def validateAmqpBatch (records : List AmqpBatchRecord) : Result Unit := do
  require (!records.isEmpty && decide (records.length ≤ 1000000))
    (invalidData "AMQP publish batch must contain 1..=1000000 records")
  let _ ← records.foldlM amqpRecordBytes 0
  return ()

def amqpPayloadBytes (encodedBytes : Nat) (payload : Bytes) : Result Nat := do
  validatePayload payload
  let encodedBytes := encodedBytes + payload.length
  require (encodedBytes < u64Limit) (new .backpressure "AMQP batch is too large")
  require (encodedBytes ≤ maxBrokerBatchBytes)
    (new .backpressure "AMQP publish batch exceeds the request frame bound")
  return encodedBytes

def validateAmqpUniformBatch (properties headers : Fields) (payloads : List Bytes) : Result Unit := do
  require (!payloads.isEmpty && decide (payloads.length ≤ 1000000))
    (invalidData "AMQP publish batch must contain 1..=1000000 records")
  let envelopeBytes := fieldsBytes properties + fieldsBytes headers
  require (envelopeBytes < u64Limit) (new .backpressure "AMQP batch is too large")
  let _ ← payloads.foldlM amqpPayloadBytes envelopeBytes
  return ()

def validateGroupProtocol (_ : Unit) (entry : String × Bytes) : Result Unit := do
  validName entry.1
  require (entry.2.length ≤
    16 * 1024 * 1024) (new .backpressure "Kafka group member metadata exceeds 16 MiB")

def validateGroupMember (sessionTimeoutMs : Nat) (protocols : Fields) : Result Unit := do
  require (1000 ≤ sessionTimeoutMs && decide (sessionTimeoutMs ≤ 86400000))
    (invalidData "Kafka group session timeout must be 1000..=86400000 milliseconds")
  require (!protocols.isEmpty && decide (protocols.size ≤ 128))
    (invalidData "Kafka group member protocol set is empty or excessive")
  protocols.toList.foldlM validateGroupProtocol ()

def selectGroupProtocol (members : ExtTreeMap String GroupMember) : Result String :=
  match members.values with
  | [] => .error (invalidData "consumer group has no members")
  | first :: rest =>
    let common := rest.foldl (fun common member => common.filter fun protocol =>
      member.protocols.contains protocol) first.protocols.keys
    orElse common.head? (invalidData "consumer group has no common assignment protocol")

def memberExpired (resolvedTimeMs : Int) (member : GroupMember) : Bool :=
  decide ((member.sessionTimeoutMs : Int) ≤ saturatingSub resolvedTimeMs member.lastHeartbeatMs)

def carryReachable : Bool → List Bool → List Bool
  | _, [] => []
  | carried, reached :: rest => (carried || reached) :: carryReachable (carried || reached) rest

/-- One pattern segment of the topic matcher: which positions of the routing key are reachable after
it. -/
def matchSegment (value : List (List Char)) (reachable : List Bool) (segment : List Char) : List Bool :=
  if segment = ['#'] then carryReachable false reachable
  else
    false :: List.zipWith (fun reached actual => reached &&
      (segment == ['*'] || segment == actual)) reachable value

def topicMatch (binding routing : String) : Bool :=
  let pattern := binding.toList.splitOn '.'
  let value := routing.toList.splitOn '.'
  let reachable := pattern.foldl (matchSegment value) (true :: value.map fun _ => false)
  reachable.getLast?.getD false

def routeMatches (kind : AmqpExchangeKind) (binding routing : String) : Bool := match kind with
  | .fanout => true
  | .direct => binding == routing
  | .topic => topicMatch binding routing

end IronGraph.Broker
