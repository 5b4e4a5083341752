import IronGraph.Broker.Types

/-!
The canonical broker state and the edits of its cells. Every edit also appends what the capture of
the running command records: the changed row, or the name of a cleared collection. A row that owns a
child collection is recorded as observed when a child changes; the child collection is named by that
row.
-/

namespace IronGraph.Broker

open Std Sliding

inductive Kind where
  | payload
  | segment
  | topic
  | exchange
  | queue
  | binding
  | stream
  | group
  | lease
  | consumers
  | references (id : StreamId)
  | members (name : Name)
  | assignments (name : Name)
  | offsets (name : Name)
  | consumerRows (name : Name)
deriving Repr, DecidableEq

structure StreamMetadata where
  baseOffset : Nat
  nextOffset : Nat
  retainedBytes : Nat
  head : Nat
  tail : Nat
deriving Repr, DecidableEq

structure GroupMetadata where
  generation : Int
  leader : String
  protocol : String
deriving Repr, DecidableEq

def StreamState.metadata (stream : StreamState) : StreamMetadata :=
  { baseOffset := stream.baseOffset
    nextOffset := stream.nextOffset
    retainedBytes := stream.retainedBytes
    head := stream.records.head
    tail := stream.records.tail }

def GroupState.metadata (group : GroupState) : GroupMetadata :=
  { generation := group.generation, leader := group.leader, protocol := group.protocol }

inductive Event where
  | payload (id : MessageId) (value : Option StoredPayloadRecord)
  | segment (id : Nat) (value : Option BrokerPayloadSegment)
  | topic (name : Name) (value : Option Topic)
  | exchange (name : Name) (value : Option Exchange)
  | queue (name : Name) (value : Option Queue)
  | binding (key : BindingKey) (value : Option Binding)
  | lease (key : ProjectId × Uuid) (value : Option Int)
  | stream (id : StreamId) (value : Option StreamMetadata)
  | group (name : Name) (value : Option GroupMetadata)
  | consumers (name : Name) (value : Option Unit)
  | reference (id : StreamId) (position : Nat) (value : Option StreamReference)
  | member (name : Name) (member : String) (value : Option GroupMember)
  | assignment (name : Name) (member : String) (value : Option Bytes)
  | offset (name : Name) (key : String × Int) (value : Option Nat)
  | consumerRow (name : Name) (key : Uuid × Nat) (value : Option Unit)
  | observedStream (id : StreamId)
  | observedGroup (name : Name)
  | observedConsumers (name : Name)
  | clear (kind : Kind)

structure BrokerStateMachine where
  nextMessageId : Nat
  nextStreamId : Nat
  nextPayloadSegmentId : Nat
  payloads : ExtTreeMap MessageId StoredPayloadRecord
  payloadSegments : ExtTreeMap Nat BrokerPayloadSegment
  topics : ExtTreeMap Name Topic
  exchanges : ExtTreeMap Name Exchange
  queues : ExtTreeMap Name Queue
  bindings : ExtTreeMap BindingKey Binding
  streams : ExtTreeMap StreamId StreamState
  groups : ExtTreeMap Name GroupState
  deliveryLeases : ExtTreeMap (ProjectId × Uuid) Int
  queueConsumers : ExtTreeMap Name (ExtTreeSet (Uuid × Nat))
  capture : List Event

structure StreamEdit where
  id : StreamId
  stream : StreamState
  changes : List Event

structure GroupEdit where
  name : Name
  group : GroupState
  changes : List Event

namespace StreamEdit

def pushBack (edit : StreamEdit) (reference : StreamReference) : StreamEdit := { edit with
    stream := { edit.stream with records := edit.stream.records.pushBack reference }
    changes := edit.changes ++ [.reference edit.id edit.stream.records.tail (some reference)] }

def popFront (edit : StreamEdit) : Option (StreamReference × StreamEdit) :=
  edit.stream.records.popFront.map fun (reference, records) =>
    (reference, { edit with
        stream := { edit.stream with records }
        changes := edit.changes ++ [.reference edit.id edit.stream.records.head none] })

def set (edit : StreamEdit) (position : Nat) (reference : StreamReference) : StreamEdit := { edit with
    stream := { edit.stream with records := edit.stream.records.set position reference }
    changes := edit.changes ++ [.reference edit.id position (some reference)] }

def clear (edit : StreamEdit) : StreamEdit := { edit with
    stream := { edit.stream with records := edit.stream.records.clear }
    changes := edit.changes ++ [.clear (.references edit.id)] }

end StreamEdit

namespace GroupEdit

variable (edit : GroupEdit)

def insertMember (member : String) (value : GroupMember) : GroupEdit := { edit with
    group := { edit.group with members := edit.group.members.insert member value }
    changes := edit.changes ++ [.member edit.name member (some value)] }

def removeMember (member : String) : GroupEdit := { edit with
    group := { edit.group with members := edit.group.members.erase member }
    changes := edit.changes ++ [.member edit.name member none] }

def retainMembers (keep : String → GroupMember → Bool) : GroupEdit := { edit with
    group := { edit.group with members := edit.group.members.filter keep }
    changes := edit.changes ++
      (edit.group.members.toList.filter fun (member, value) =>
        !keep member value).map fun (member, _) =>
        .member edit.name member none }

def clearAssignments : GroupEdit := { edit with
    group := { edit.group with assignments := ∅ }
    changes := edit.changes ++ [.clear (.assignments edit.name)] }

def insertAssignment (member : String) (assignment : Bytes) : GroupEdit := { edit with
    group := { edit.group with assignments := edit.group.assignments.insert member assignment }
    changes := edit.changes ++ [.assignment edit.name member (some assignment)] }

def insertOffset (key : String × Int) (offset : Nat) : GroupEdit := { edit with
    group := { edit.group with offsets := edit.group.offsets.insert key offset }
    changes := edit.changes ++ [.offset edit.name key (some offset)] }

def retainOffsets (keep : String × Int → Nat → Bool) : GroupEdit := { edit with
    group := { edit.group with offsets := edit.group.offsets.filter keep }
    changes := edit.changes ++
      (edit.group.offsets.toList.filter fun (key, value) => !keep key value).map fun (key, _) =>
        .offset edit.name key none }

end GroupEdit

def removal (present : Bool) (event : Event) : List Event := bif present then [event] else []

namespace BrokerStateMachine

variable (s : BrokerStateMachine)

def empty : BrokerStateMachine :=
  { nextMessageId := 0
    nextStreamId := 0
    nextPayloadSegmentId := 0
    payloads := ∅
    payloadSegments := ∅
    topics := ∅
    exchanges := ∅
    queues := ∅
    bindings := ∅
    streams := ∅
    groups := ∅
    deliveryLeases := ∅
    queueConsumers := ∅
    capture := [] }

def insertPayload (id : MessageId) (value : StoredPayloadRecord) : BrokerStateMachine := { s with
    payloads := s.payloads.insert id value
    capture := s.capture ++ [.payload id (some value)] }

def removePayloadRow (id : MessageId) : BrokerStateMachine := { s with
    payloads := s.payloads.erase id
    capture := s.capture ++ removal (s.payloads.contains id) (.payload id none) }

def insertSegment (id : Nat) (value : BrokerPayloadSegment) : BrokerStateMachine := { s with
    payloadSegments := s.payloadSegments.insert id value
    capture := s.capture ++ [.segment id (some value)] }

def removeSegment (id : Nat) : BrokerStateMachine := { s with
    payloadSegments := s.payloadSegments.erase id
    capture := s.capture ++ removal (s.payloadSegments.contains id) (.segment id none) }

variable (name : Name)

def insertTopic (value : Topic) : BrokerStateMachine := { s with
    topics := s.topics.insert name value
    capture := s.capture ++ [.topic name (some value)] }

def removeTopic : BrokerStateMachine := { s with
    topics := s.topics.erase name
    capture := s.capture ++ removal (s.topics.contains name) (.topic name none) }

def insertExchange (value : Exchange) : BrokerStateMachine := { s with
    exchanges := s.exchanges.insert name value
    capture := s.capture ++ [.exchange name (some value)] }

def removeExchange : BrokerStateMachine := { s with
    exchanges := s.exchanges.erase name
    capture := s.capture ++ removal (s.exchanges.contains name) (.exchange name none) }

def insertQueue (value : Queue) : BrokerStateMachine := { s with
    queues := s.queues.insert name value
    capture := s.capture ++ [.queue name (some value)] }

def removeQueue : BrokerStateMachine := { s with
    queues := s.queues.erase name
    capture := s.capture ++ removal (s.queues.contains name) (.queue name none) }

def pushBinding (project : ProjectId) (value : Binding) : BrokerStateMachine :=
  let key : BindingKey := (project, value.exchange, value.queue, value.routingKey)
  { s with
    bindings := s.bindings.insert key value
    capture := s.capture ++ [.binding key (some value)] }

def retainBindings (keep : BindingKey → Binding → Bool) : BrokerStateMachine := { s with
    bindings := s.bindings.filter keep
    capture := s.capture ++
      (s.bindings.toList.filter fun (key, value) => !keep key value).map fun (key, _) =>
        .binding key none }

def insertLease (key : ProjectId × Uuid) (deadline : Int) : BrokerStateMachine := { s with
    deliveryLeases := s.deliveryLeases.insert key deadline
    capture := s.capture ++ [.lease key (some deadline)] }

def removeLease (key : ProjectId × Uuid) : BrokerStateMachine := { s with
    deliveryLeases := s.deliveryLeases.erase key
    capture := s.capture ++ removal (s.deliveryLeases.contains key) (.lease key none) }

def insertStream (id : StreamId) (value : StreamState) : BrokerStateMachine := { s with
    streams := s.streams.insert id value
    capture := s.capture ++ [.stream id (some value.metadata)] }

def removeStream (id : StreamId) : BrokerStateMachine := { s with
    streams := s.streams.erase id
    capture := s.capture ++ removal (s.streams.contains id) (.stream id none) }

def editStream (id : StreamId) : Option StreamEdit :=
  s.streams[id]?.map fun stream => { id, stream, changes := [] }

def commitStream (edit : StreamEdit) : BrokerStateMachine := { s with
    streams := s.streams.insert edit.id edit.stream
    capture := s.capture ++ .observedStream edit.id :: edit.changes ++
      [.stream edit.id (some edit.stream.metadata)] }

def editGroup : Option GroupEdit := s.groups[name]?.map fun group => { name, group, changes := [] }

def commitGroup (edit : GroupEdit) : BrokerStateMachine := { s with
    groups := s.groups.insert edit.name edit.group
    capture := s.capture ++ .observedGroup edit.name :: edit.changes ++
      [.group edit.name (some edit.group.metadata)] }

def removeGroup : BrokerStateMachine := { s with
    groups := s.groups.erase name
    capture := s.capture ++ removal (s.groups.contains name) (.group name none) }

def commitGroupChildren (edit : GroupEdit) : BrokerStateMachine := { s with
    groups := s.groups.insert edit.name edit.group
    capture := s.capture ++ .observedGroup edit.name :: edit.changes }

def commitConsumers (rows : ExtTreeSet (Uuid × Nat)) (changes : List Event) :
    BrokerStateMachine := { s with
    queueConsumers := s.queueConsumers.insert name rows
    capture := s.capture ++ .observedConsumers name :: changes ++ [.consumers name (some ())] }

/-- A consumer row removed while it is being edited: the end of the edit records the removal once
more. -/
def removeEditedConsumers (changes : List Event) : BrokerStateMachine := { s with
    queueConsumers := s.queueConsumers.erase name
    capture := s.capture ++ .observedConsumers name :: changes ++ [.consumers name none,
      .consumers name none] }

def removeConsumers : BrokerStateMachine := { s with
    queueConsumers := s.queueConsumers.erase name
    capture := s.capture ++ removal (s.queueConsumers.contains name) (.consumers name none) }

end BrokerStateMachine

end IronGraph.Broker
