import IronGraph.Broker.ValidateCommand

/-!
Consumer groups: expiry of silent members, and the assignment of partitions to members that the broker
computes from how far each partition is behind.
-/

namespace IronGraph.Broker

open Std Outcome FixedBytes

def beBytes (width value : Nat) : Bytes := (leBytes width value).reverse

def signedBe (bytes : Bytes) : Int :=
  let value := ofLeBytes bytes.reverse
  let range := 256 ^ bytes.length
  if 2 * value < range then value else (value : Int) - range

def takeBytes (metadata : Bytes) (count : Nat) : Option (Bytes × Bytes) :=
  if count ≤ metadata.length then some (metadata.splitAt count) else none

def takeSigned (metadata : Bytes) (width : Nat) : Option (Int × Bytes) :=
  (takeBytes metadata width).map fun (bytes, rest) => (signedBe bytes, rest)

def unsignedOf (value : Int) : Option Nat :=
  if 0 ≤ value then some value.toNat else none

def takeTopics : Nat → Bytes → Option (List String)
  | 0, _ => some []
  | count + 1, metadata => do
    let (length, metadata) ← takeSigned metadata 2
    let length ← unsignedOf length
    let (name, metadata) ← takeBytes metadata length
    let topic ← String.fromUTF8? ⟨name.toArray⟩
    let topics ← takeTopics count metadata
    return topic :: topics

/-- The topics a member's join metadata subscribes to; metadata that cannot be read subscribes to
nothing. -/
def decodeSubscribedTopics (metadata : Bytes) : Option (List String) := do
  let (_, metadata) ← takeSigned metadata 2
  let (count, metadata) ← takeSigned metadata 4
  let count ← unsignedOf count
  if metadata.length < count * 2 then none
  else takeTopics count metadata

abbrev PartitionAssignment := ExtTreeMap String (List Int)

def encodePartitionAssignment (assignment : PartitionAssignment) : Bytes :=
  let length16 (length : Nat) := beBytes 2 (if length ≤ 32767 then length else 0)
  let length32 (length : Nat) := beBytes 4 (if length ≤ 2147483647 then length else 0)
  let topics := assignment.toList.flatMap fun (topic, partitions) =>
    length16 topic.utf8ByteSize ++ topic.toUTF8.toList ++ length32 partitions.length ++
      partitions.flatMap fun partition => beBytes 4 (partition % 2 ^ 32).toNat
  beBytes 2 0 ++ length32 assignment.size ++ topics ++ beBytes 4 (2 ^ 32 - 1)

structure Balance where
  assignment : ExtTreeMap String PartitionAssignment
  load : ExtTreeMap String Nat

variable (subscriptions : ExtTreeMap String (List String))

/-- The least loaded subscriber of a topic, the first by name among equals. -/
def leastLoaded (load : ExtTreeMap String Nat) (topic : String) : Option String :=
  let subscribers := (subscriptions.toList.filter fun (_, topics) => topics.contains topic).map (·.1)
  subscribers.foldl (fun best member =>
      match best with
      | none => some member
      | some least =>
        if load.getD member 0 < load.getD least 0 ∨
            (load.getD member 0 = load.getD least 0 ∧ compare member least = .lt) then some member
        else some least) none

def placePartition (balance : Balance) (entry : (String × Int) × Nat) : Balance :=
  let ((topic, partition), weight) := entry
  match leastLoaded subscriptions balance.load topic with
  | none => balance
  | some member =>
    let held := balance.assignment.getD member ∅
    { assignment := balance.assignment.insert member (held.insert topic (held.getD topic [] ++ [partition]))
      load := balance.load.insert member
        (balance.load[member]?.elim weight fun total => saturatingAdd total weight) }

def heavierFirst (left right : (String × Int) × Nat) : Bool :=
  decide (right.2 < left.2) || (left.2 == right.2 && compare left.1 right.1 != .gt)

/-- Greedy balancing: partitions are placed heaviest first, each on the member holding the least
work. -/
def balancePartitionsByLag (lag : ExtTreeMap (String × Int) Nat) :
    ExtTreeMap String PartitionAssignment :=
  let start : Balance :=
    { assignment := subscriptions.map fun _ _ => ∅, load := subscriptions.map fun _ _ => 0 }
  let ordered := lag.toList.insertionSort fun left right => heavierFirst left right = true
  (ordered.foldl (placePartition subscriptions) start).assignment

def leastMember (members : ExtTreeMap String GroupMember) : String := members.keys.head?.getD ""

def groupReply (group : GroupState) : BrokerReply :=
  .group group.generation group.leader group.members.keys group.protocol
    (group.members.map fun _ member => member.protocols[group.protocol]?.getD [])

namespace BrokerStateMachine

variable (s : BrokerStateMachine)

def partitionLag (group : GroupState) (topic : String)
    (lag : ExtTreeMap (String × Int) Nat) (partition : StreamId × Nat) :
    ExtTreeMap (String × Int) Nat :=
  let (stream, index) := partition
  if (index : Int) ≤ i32Max then
    match s.streams[stream]? with
    | none => lag
    | some state =>
      -- An uncommitted partition is weighed from its base, so that a long log does not look endless.
      let committed := group.offsets[(topic, (index : Int))]?.getD state.baseOffset
      lag.insert (topic, index) (state.nextOffset - committed)
  else lag

variable (project : ProjectId)

def subscribedPartitionLag (group : GroupState) (topics : ExtTreeSet String) :
    ExtTreeMap (String × Int) Nat :=
  topics.toList.foldl (fun lag topic =>
      match s.topics[(project, topic)]? with
      | none => lag
      | some declared => declared.partitions.zipIdx.foldl (s.partitionLag group topic) lag) ∅

def memberSubscription (group : GroupState) (entry : String × GroupMember) :
    Option (String × List String) := do
  let metadata ← entry.2.protocols[group.protocol]?
  let topics ← decodeSubscribedTopics metadata
  return (entry.1, topics)

def rebalancedAssignment (group : GroupState) : Option Fields := do
  let entries ← group.members.toList.mapM (memberSubscription group)
  if entries.isEmpty then none
  else
    let subscriptions : ExtTreeMap String (List String) := ExtTreeMap.ofList entries
    let topics : ExtTreeSet String := ExtTreeSet.ofList (subscriptions.values.flatMap id)
    let lag := s.subscribedPartitionLag project group topics
    return (balancePartitionsByLag subscriptions lag).map fun _ partitions =>
      encodePartitionAssignment partitions

variable (resolvedTimeMs : Int)

def expiringGroups : List Name := (s.groups.toList.filter fun (name, group) =>
    name.1 == project && group.members.values.any (memberExpired resolvedTimeMs)).map (·.1)

def expireGroup (s : BrokerStateMachine) (name : Name) : Result BrokerStateMachine := do
  let edit ← orElse (s.editGroup name) (Error.internal "expiring consumer group disappeared")
  let edit := edit.retainMembers fun _ member => !memberExpired resolvedTimeMs member
  require (edit.group.generation + 1 ≤ i32Max) (Error.internal "group generation exhausted")
  let edit := edit.clearAssignments
  let group := edit.group
  let leader := if group.members.contains group.leader then group.leader else leastMember group.members
  let protocol ← if group.members.isEmpty then pure "" else selectGroupProtocol group.members
  return s.commitGroup { edit with group := { group with
    generation := group.generation + 1, leader, protocol } }

def expireGroupMembers : Result BrokerStateMachine :=
  (s.expiringGroups project resolvedTimeMs).foldlM (expireGroup resolvedTimeMs) s

end BrokerStateMachine

end IronGraph.Broker
