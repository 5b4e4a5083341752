import IronGraph.Broker.Custody

/-!
The invariant of the broker state, what it asks of the environment, and how an edit of one stream
keeps it.
-/

namespace IronGraph.Broker

open Std Outcome OrderedMap BrokerStateMachine Option Error Function

/-- The errors of the checked additions on counters, byte totals and timestamps. -/
def overflowErrors : List Error := [ internal "message ID exhausted" , internal "stream ID exhausted"
  , internal "broker payload segment ID exhausted"
  , internal "broker offset exhausted"
  , internal "broker accounted byte length overflow"
  , internal "broker retained byte accounting overflow"
  , internal "broker delivery result length overflow"
  , internal "delivery tag exhausted"
  , internal "delivery lease deadline overflow"
  , invalidData "payload length overflow"
  , invalidData "payload extent overflow" ]

def Overflow (error : Error) : Prop := error ∈ overflowErrors

/-- A written batch: every record lies inside the payload and is read back from its location. -/
structure Written (runtime : Runtime) (project : ProjectId) (records : List SegmentRecord)
    (descriptor : SegmentDescriptor) (locations : List SegmentRecordLocation) : Prop where
  family : descriptor.family = .brokerPayload
  projectId : descriptor.projectId = some project
  bounded : descriptor.bytes < u64Limit
  length : locations.length = records.length
  extent : ∀ {index : Nat} {location : SegmentRecordLocation} {record : SegmentRecord},
    locations[index]? = some location → records[index]? = some record →
      record.payload.length ≤ location.bytes ∧ location.offset + location.bytes ≤ descriptor.bytes ∧
        runtime.readRecordAt descriptor location = .ok record

/-- The segment store returns the records written to it, and the compact encoding round-trips. -/
structure Lawful (runtime : Runtime) : Prop where
  written : ∀ (project : ProjectId) (records : List SegmentRecord), records ≠ [] →
    Meets (runtime.writeImmutable .brokerPayload (some project) records)
      (fun stored => Written runtime project records stored.1 stored.2) Overflow
  encoded : ∀ record : PayloadSegmentRecord, ∃ bytes, runtime.encodeCompact record = .ok bytes ∧
    runtime.decodeCompact bytes = .ok record ∧ record.payload.length ≤ bytes.length

structure Declared (topics : ExtTreeMap Name Topic) (queues : ExtTreeMap Name Queue) : Prop where
  topic : ∀ {name : Name} {topic : Topic}, topics[name]? = some topic →
    topic.partitions ≠ [] ∧ topic.partitions.length ≤ 4096 ∧ topic.retention.validate = .ok ()
  queue : ∀ {name : Name} {queue : Queue}, queues[name]? = some queue →
    queue.retention.validate = .ok ()

def Bound (bindings : ExtTreeMap BindingKey Binding) (exchanges : ExtTreeMap Name Exchange)
    (queues : ExtTreeMap Name Queue) : Prop :=
  ∀ (key : BindingKey) (binding : Binding), bindings[key]? = some binding →
    key.2 = (binding.exchange, binding.queue, binding.routingKey) ∧
      (key.1, binding.exchange) ∈ exchanges ∧ (key.1, binding.queue) ∈ queues

/-- What holds of a group. A group that has members is led by one of them under their common
protocol as long as the run has been `orderly`. -/
structure GroupWell (orderly : Prop) (shelf : Shelf) (project : ProjectId)
    (group : GroupState) : Prop where
  generation : 0 ≤ group.generation
  common : group.members.isEmpty = false → ∃ protocol, selectGroupProtocol group.members = .ok protocol
  led : orderly → group.members.isEmpty = false →
    group.leader ∈ group.members ∧ selectGroupProtocol group.members = .ok group.protocol
  assigned : ∀ {member : String}, member ∈ group.assignments → member ∈ group.members
  committed : ∀ {topic : String} {partition : Int} {offset : Nat},
    group.offsets[(topic, partition)]? = some offset → 0 ≤ partition ∧
      ∃ stream, shelf (.partition (project, topic) partition.toNat) = some stream ∧
        offset ≤ stream.nextOffset

def Grouped (orderly : Prop) (groups : ExtTreeMap Name GroupState) (shelf : Shelf) : Prop :=
  ∀ (name : Name) (group : GroupState), groups[name]? = some group →
    GroupWell orderly shelf name.1 group

def Extends (shelf shelf' : Shelf) : Prop :=
  ∀ (name : Name) (index : Nat) (stream : StreamState), shelf (.partition name index) = some stream →
    ∃ stream', shelf' (.partition name index) = some stream' ∧ stream.nextOffset ≤ stream'.nextOffset

variable {shelf : Shelf}

theorem GroupWell.extend {project : ProjectId} {group : GroupState} {shelf' : Shelf}
    {orderly : Prop} (well : GroupWell orderly shelf project group)
    (extension : Extends shelf shelf') : GroupWell orderly shelf' project group := by
  refine { well with committed := ?_ }
  intro topic part offset found
  obtain ⟨nonnegative, stream, standing, reached⟩ := well.committed found
  obtain ⟨stream', standing', longer⟩ := extension _ _ _ standing
  exact ⟨nonnegative, stream', standing', Nat.le_trans reached longer⟩

theorem Grouped.extend {orderly : Prop} {groups : ExtTreeMap Name GroupState} {shelf' : Shelf}
    (grouped : Grouped orderly groups shelf) (extension : Extends shelf shelf') :
    Grouped orderly groups shelf' :=
  fun name group found => (grouped name group found).extend extension

theorem Extends.update {slot : Slot} {stream stream' : StreamState}
    (standing : shelf slot = some stream) (longer : stream.nextOffset ≤ stream'.nextOffset) :
    Extends shelf (update shelf slot (some stream')) := by
  intro name index found standingFound
  by_cases here : Slot.partition name index = slot
  · subst here
    rw [standing, some.injEq] at standingFound
    exact ⟨stream', update_self .., standingFound ▸ longer⟩
  · exact ⟨found, by rw [update_of_ne here]; exact standingFound, Nat.le_refl _⟩

structure Invariant (runtime : Runtime) (orderly : Prop) (s : BrokerStateMachine)
    (floating : MessageId → Prop) (missing : Nat → Nat) (stale : ProjectId × Uuid → Prop) : Prop where
  owned : Owned s.topics s.queues s.streams s.nextStreamId
  logs : ∀ {slot stream}, s.shelf slot = some stream → StreamWell stream
  accounts : Accounts runtime s.shelf s.ledger floating missing
  classic : ClassicHeld s.shelf s.queues
  leased : Leased s.shelf s.deliveryLeases stale
  declared : Declared s.topics s.queues
  bound : Bound s.bindings s.exchanges s.queues
  grouped : Grouped orderly s.groups s.shelf

def Settled (runtime : Runtime) (orderly : Prop) (s : BrokerStateMachine) : Prop :=
  Invariant runtime orderly s (fun _ => False) (fun _ => 0) (fun _ => False)

section Invariant

variable {orderly : Prop} {runtime : Runtime} {s : BrokerStateMachine}
  {stale' : ProjectId × Uuid → Prop} {floating' : MessageId → Prop}

theorem empty_settled : Settled runtime orderly empty := by
  have bare : ∀ slot, empty.shelf slot = none := by
    intro slot
    cases slot <;> rfl
  refine ⟨empty_owned, ?_, .of_bare bare (fun _ => rfl) (fun _ => rfl), ?_, ?_,
    ⟨nofun, nofun⟩, nofun, nofun⟩
  · intro slot stream standing
    rw [bare] at standing
    cases standing
  · intro slot stream owner standing
    rw [bare] at standing
    cases standing
  · refine ⟨?_, fun has => absurd has ExtTreeMap.not_mem_empty⟩
    rintro project owner ⟨slot, stream, _, standing, _⟩
    rw [bare] at standing
    cases standing

theorem Invariant.weaken {floating : MessageId → Prop} {missing : Nat → Nat}
    {stale : ProjectId × Uuid → Prop} (inv : Invariant runtime orderly s floating missing stale)
    (floats : ∀ msg, floating msg → floating' msg) (stales : ∀ key, stale key → stale' key) :
    Invariant runtime orderly s floating' missing stale' :=
  { inv with
    accounts := inv.accounts.settle fun msg floated => .inl (floats msg floated)
    leased := inv.leased.settle fun project owner outlived => .inr (stales (project, owner) outlived) }

structure At (s : BrokerStateMachine) (slot : Slot) (id : StreamId) (stream : StreamState) : Prop where
  slot : slotStream s.topics s.queues slot = some id
  stream : s.streams[id]? = some stream

variable {stream : StreamState} {id : StreamId} {slot : Slot}

theorem At.standing (here : At s slot id stream) : s.shelf slot = some stream :=
  shelfOf_eq_some.mpr ⟨id, here.slot, here.stream⟩

theorem At.editStream (here : At s slot id stream) :
    s.editStream id = some { id, stream, changes := [] } := by
  simp [BrokerStateMachine.editStream, here.stream]

variable {floating : MessageId → Prop} {missing : Nat → Nat} {stale : ProjectId × Uuid → Prop}
  (inv : Invariant runtime orderly s floating missing stale)
include inv

theorem Invariant.stands (found : slotStream s.topics s.queues slot = some id) :
    ∃ stream, At s slot id stream := by
  obtain ⟨stream, has⟩ := inv.owned.declared found
  exact ⟨stream, found, has⟩

/-- An edit of one stream keeps the invariant if the edited stream is well formed and its accounts and
holders are accounted for. -/
theorem Invariant.commitStream {edit : StreamEdit} (here : At s slot edit.id stream)
    (well : StreamWell edit.stream) (longer : stream.nextOffset ≤ edit.stream.nextOffset)
    (accounts : Accounts runtime (update s.shelf slot (some edit.stream)) s.ledger floating' missing)
    (classic : ClassicHeld (update s.shelf slot (some edit.stream)) s.queues)
    (leased : Leased (update s.shelf slot (some edit.stream)) s.deliveryLeases stale') :
    Invariant runtime orderly (s.commitStream edit) floating' missing stale' := by
  have shelf : (s.commitStream edit).shelf = update s.shelf slot (some edit.stream) :=
    inv.owned.shelfOf_insert here.slot edit.stream
  refine ⟨inv.owned.insert here.slot edit.stream, ?_, ?_, ?_, ?_, inv.declared, inv.bound, ?_⟩
  · intro other found standing
    rw [shelf] at standing
    by_cases same : other = slot
    · rw [same, update_self, some.injEq] at standing
      exact standing ▸ well
    · rw [update_of_ne same] at standing
      exact inv.logs standing
  · rw [shelf]
    exact accounts
  · rw [shelf]
    exact classic
  · rw [shelf]
    exact leased
  · rw [shelf]
    exact inv.grouped.extend (.update here.standing longer)

theorem Invariant.withdraw {gone : Slot → Bool} (s' : BrokerStateMachine)
    (withdrawn : Withdrawn s.topics s'.topics s.queues s'.queues s.streams s'.streams gone)
    (cursor : s'.nextStreamId = s.nextStreamId) (ledger : s'.ledger = s.ledger)
    (kept : ∀ {name : Name} {queue : Queue}, gone (.queue name) = false → s.queues[name]? = some queue →
      s'.queues[name]? = some queue) (declared : Declared s'.topics s'.queues)
    (bound : Bound s'.bindings s'.exchanges s'.queues) (grouped : Grouped orderly s'.groups s'.shelf)
    (leased : Leased s'.shelf s'.deliveryLeases stale') : Invariant runtime orderly s'
      (fun msg => floating msg ∨ ∃ slot, gone slot = true ∧
        Refers s.shelf slot msg) missing stale' := by
  have shelf : ∀ slot, s'.shelf slot = bif gone slot then none else s.shelf slot :=
    inv.owned.shelfOf_withdraw withdrawn
  refine ⟨cursor ▸ inv.owned.withdraw withdrawn, ?_, ledger ▸ inv.accounts.withdraw shelf,
    inv.classic.withdraw shelf kept, leased, declared, bound, grouped⟩
  intro slot stream standing
  rw [shelf slot] at standing
  cases leaves : gone slot with
  | true => simp [leaves] at standing
  | false => exact inv.logs (by simpa [leaves] using standing)

end Invariant

end IronGraph.Broker
