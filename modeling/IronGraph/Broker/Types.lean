import IronGraph.Library.Window
import IronGraph.Storage.SegmentCore

/-!
The data of the message broker. Counters, offsets and lengths are natural numbers that the code
keeps below the word size by checked additions; timestamps are integers. The nil identifier is zero.
-/

namespace IronGraph.Broker

open Std Sliding

abbrev MessageId := Nat

abbrev StreamId := Nat

abbrev Name := ProjectId × String

instance pairOrd {α β : Type} [Ord α] [Ord β] : Ord (α × β) := lexOrd

abbrev Fields := ExtTreeMap String Bytes

inductive IngressMetadata where
  | kafka (createTimeMs : Option Int) (key : Option Bytes) (headers : Fields) (valueIsNull : Bool)
  | amqp (exchange routingKey : String) (properties headers : Fields) (deathCount : Nat)
deriving DecidableEq

structure PayloadRecord where
  id : MessageId
  resolvedTimeMs : Int
  ingress : IngressMetadata
  payload : Bytes
  checksum : Digest
deriving DecidableEq

structure StoredPayloadRecord where
  id : MessageId
  resolvedTimeMs : Int
  segment : Nat
  location : SegmentRecordLocation
  retainedBytes : Nat
  payloadBytes : Nat
  checksum : Digest
  kafkaTimeMs : Option Int
deriving DecidableEq

structure BrokerPayloadSegment where
  id : Nat
  descriptor : SegmentDescriptor
  liveRecords : Nat
  sharedAmqpIngress : Option IngressMetadata
  sharedKafkaIngress : Option IngressMetadata
  sharedIngressBytes : Nat
deriving DecidableEq

structure PayloadSegmentRecord where
  project : ProjectId
  id : MessageId
  resolvedTimeMs : Int
  ingress : IngressMetadata
  payload : Bytes
  checksum : Digest
deriving DecidableEq

structure PendingPayloadRecord where
  id : MessageId
  ingress : IngressMetadata
  payload : Bytes

inductive QueueKind where
  | classic
  | stream
deriving Repr, DecidableEq

inductive AmqpExchangeKind where
  | direct
  | fanout
  | topic
deriving Repr, DecidableEq

structure RetentionPolicy where
  maxAgeMs : Option Nat
  maxBytes : Option Nat
deriving Repr, DecidableEq

structure Topic where
  partitions : List StreamId
  retention : RetentionPolicy
deriving Repr, DecidableEq

structure Exchange where
  kind : AmqpExchangeKind
  durable : Bool
deriving Repr, DecidableEq

structure Queue where
  stream : StreamId
  kind : QueueKind
  durable : Bool
  deadLetterExchange : Option String
  deadLetterRoutingKey : Option String
  retention : RetentionPolicy
  exclusiveOwner : Option Uuid
  autoDelete : Bool
deriving Repr, DecidableEq

structure Binding where
  exchange : String
  queue : String
  routingKey : String
deriving Repr, DecidableEq

abbrev BindingKey := ProjectId × String × String × String

instance bindingKeyTransOrd : TransOrd BindingKey := inferInstance

inductive DeliveryState where
  | ready
  | unacked (owner : Uuid) (consumer : Nat) (tag : Nat)
  | acknowledged
  | deadLettered
deriving Repr, DecidableEq

structure StreamReference where
  offset : Nat
  message : MessageId
  delivery : DeliveryState
  redelivered : Bool
  deathCount : Nat
  currentExchange : Option String
  currentRoutingKey : Option String
deriving Repr, DecidableEq

abbrev StreamRecords := Window StreamReference

structure StreamState where
  baseOffset : Nat
  nextOffset : Nat
  retainedBytes : Nat
  records : StreamRecords

def StreamState.empty : StreamState :=
  { baseOffset := 0, nextOffset := 0, retainedBytes := 0, records := Window.empty }

def StreamState.messages (stream : StreamState) : List MessageId := stream.records.items.map (·.message)

structure GroupMember where
  protocols : Fields
  sessionTimeoutMs : Nat
  lastHeartbeatMs : Int
deriving DecidableEq

structure GroupState where
  generation : Int
  leader : String
  members : ExtTreeMap String GroupMember
  protocol : String
  assignments : Fields
  offsets : ExtTreeMap (String × Int) Nat
deriving DecidableEq

structure KafkaBatchRecord where
  createTimeMs : Option Int
  key : Option Bytes
  headers : Fields
  payload : Bytes
  valueIsNull : Bool
deriving DecidableEq

structure AmqpBatchRecord where
  exchange : String
  routingKey : String
  mandatory : Bool
  properties : Fields
  headers : Fields
  payload : Bytes
deriving DecidableEq

inductive StreamOffset where
  | first
  | last
  | absolute (value : Nat)
  | timestamp (value : Int)
  | next
deriving Repr, DecidableEq

structure Delivery where
  queue : String
  offset : Nat
  deliveryTag : Nat
  redelivered : Bool
  deathCount : Nat
  exchange : String
  routingKey : String
  payload : PayloadRecord
deriving DecidableEq

inductive BrokerCommand where
  | createTopic (project : ProjectId) (name : String) (partitions : Nat) (retention : RetentionPolicy)
  | setTopicRetention (project : ProjectId) (name : String) (retention : RetentionPolicy)
  | deleteTopic (project : ProjectId) (name : String)
  | clearTopic (project : ProjectId) (name : String)
  | createExchange (project : ProjectId) (name : String) (kind : AmqpExchangeKind)
      (durable passive : Bool)
  | createQueue (project : ProjectId) (name : String) (kind : QueueKind) (durable passive : Bool)
      (deadLetterExchange deadLetterRoutingKey : Option String) (retention : RetentionPolicy)
      (exclusiveOwner : Option Uuid) (autoDelete : Bool)
  | setQueueRetention (project : ProjectId) (name : String) (retention : RetentionPolicy)
  | registerConsumer (project : ProjectId) (queue : String) (owner : Uuid) (consumer : Nat)
  | unregisterConsumer (project : ProjectId) (queue : String) (owner : Uuid) (consumer : Nat)
  | releaseConnection (project : ProjectId) (owner : Uuid)
  | bindQueue (project : ProjectId) (exchange queue routingKey : String)
  | unbindQueue (project : ProjectId) (exchange queue routingKey : String)
  | purgeQueue (project : ProjectId) (name : String)
  | deleteQueue (project : ProjectId) (name : String) (ifUnused ifEmpty : Bool)
  | deleteExchange (project : ProjectId) (name : String) (ifUnused : Bool)
  | publishKafkaBatch (project : ProjectId) (topic : String) (partition : Int) (resolvedTimeMs : Int)
      (records : List KafkaBatchRecord)
  | publishAmqp (project : ProjectId) (exchange routingKey : String) (mandatory : Bool)
      (resolvedTimeMs : Int) (properties headers : Fields) (payload : Bytes)
  | publishAmqpBatch (project : ProjectId) (resolvedTimeMs : Int) (records : List AmqpBatchRecord)
  | publishAmqpUniformBatch (project : ProjectId) (resolvedTimeMs : Int) (exchange routingKey : String)
      (mandatory : Bool) (properties headers : Fields) (payloads : List Bytes)
  | commitOffset (project : ProjectId) (group topic : String) (partition : Int) (offset : Nat)
      (generation : Option Int) (member : Option String)
  | joinGroup (project : ProjectId) (group member : String) (sessionTimeoutMs : Nat)
      (resolvedTimeMs : Int) (protocols : Fields)
  | syncGroup (project : ProjectId) (group : String) (generation : Int) (assignments : Fields)
  | leaveGroup (project : ProjectId) (group member : String)
  | heartbeatGroup (project : ProjectId) (group : String) (generation : Int) (member : String)
      (resolvedTimeMs : Int)
  | ack (project : ProjectId) (queue : String) (owner : Uuid) (consumer deliveryTag : Nat)
      (multiple : Bool)
  | nack (project : ProjectId) (queue : String) (owner : Uuid) (consumer deliveryTag : Nat)
      (multiple requeue : Bool)
  | deliverQueue (project : ProjectId) (queue : String) (offset : StreamOffset) (maximum : Nat)
      (owner : Uuid) (consumer : Nat) (automaticAck : Bool) (resolvedTimeMs : Int)
  | renewDeliveryLease (project : ProjectId) (owner : Uuid) (resolvedTimeMs : Int)
  | releaseDeliveryLease (project : ProjectId) (owner : Uuid)
  | retain (project : ProjectId) (resolvedTimeMs : Int)
deriving DecidableEq

inductive BrokerReply where
  | declared
  | topicAlreadyExists
  | deleted
  | unbound
  | messagesDiscarded (messageCount : Nat)
  | published (message : MessageId) (offsets : List (StreamId × Nat))
  | kafkaBatchPublished (firstOffset recordCount : Nat)
  | amqpBatchPublished (offsets : List (List (StreamId × Nat)))
  | amqpUniformBatchPublished (recordCount : Nat) (routed : Bool)
  | group (generation : Int) (leader : String) (members : List String) (protocol : String)
      (metadata : Fields)
  | offsetCommitted
  | acknowledged
  | deliveries (deliveries : List Delivery)
  | retained (removedReferences removedPayloads : Nat)
deriving DecidableEq

end IronGraph.Broker
