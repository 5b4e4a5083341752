import IronGraph.Broker.Invariant

/-!
What a command may do to the state, apart from keeping the invariant: a log only moves forward, a
reference is held by whoever it was handed to, and nothing of another project changes. The relation
is transitive.
-/

namespace IronGraph.Broker

open Std OrderedMap Option

/-- How a log goes on. The pairs in `hand` are those that a delivery may have handed references to. -/
structure Follows (hand : Uuid → Nat → Prop) (before after : StreamState) : Prop where
  base : before.baseOffset ≤ after.baseOffset
  next : before.nextOffset ≤ after.nextOffset
  carried : ∀ {reference}, reference ∈ after.records.items → reference.offset < before.nextOffset →
    ∃ earlier ∈ before.records.items, earlier.offset = reference.offset ∧
      earlier.message = reference.message
  held : ∀ {reference owner consumer tag}, reference ∈ after.records.items →
    reference.delivery = .unacked owner consumer tag → hand owner consumer ∨
      ∃ earlier ∈ before.records.items, earlier.offset = reference.offset ∧
        earlier.delivery = .unacked owner consumer tag

section Follows

variable {hand : Uuid → Nat → Prop} {before after : StreamState}

theorem Follows.refl (stream : StreamState) : Follows hand stream stream :=
  ⟨Nat.le_refl _, Nat.le_refl _, fun mem _ => ⟨_, mem, rfl, rfl⟩,
    fun mem held => .inr ⟨_, mem, rfl, held⟩⟩

theorem Follows.trans {middle : StreamState} (first : Follows hand before middle)
    (second : Follows hand middle after) :
    Follows hand before after := by
  refine ⟨Nat.le_trans first.base second.base, Nat.le_trans first.next second.next, ?_, ?_⟩
  · intro ref mem older
    obtain ⟨between, inside, sameOffset, sameMessage⟩ :=
      second.carried mem (Nat.lt_of_lt_of_le older first.next)
    obtain ⟨prior, has, offset, msg⟩ := first.carried inside (sameOffset ▸ older)
    exact ⟨prior, has, offset.trans sameOffset, msg.trans sameMessage⟩
  · intro ref owner consumer tag mem held
    rcases second.held mem held with handed | ⟨between, inside, sameOffset, heldBetween⟩
    · exact .inl handed
    · refine (first.held inside heldBetween).imp_right ?_
      rintro ⟨prior, has, offset, heldEarlier⟩
      exact ⟨prior, has, offset.trans sameOffset, heldEarlier⟩

theorem Follows.mono {hand' : Uuid → Nat → Prop} (follows : Follows hand before after)
    (wider : ∀ owner consumer, hand owner consumer → hand' owner consumer) :
    Follows hand' before after :=
  { follows with held := fun mem held => (follows.held mem held).imp_left (wider _ _) }

theorem Follows.append {refs : List StreamReference} (base : after.baseOffset = before.baseOffset)
    (next : before.nextOffset ≤ after.nextOffset)
    (items : after.records.items = before.records.items ++ refs)
    (numbered : ∀ ref ∈ refs, before.nextOffset ≤ ref.offset)
    (ready : ∀ ref ∈ refs, ref.delivery = .ready) : Follows hand before after := by
  refine ⟨Nat.le_of_eq base.symm, next, ?_, ?_⟩
  · intro ref mem older
    rw [items, List.mem_append] at mem
    rcases mem with old | new
    · exact ⟨ref, old, rfl, rfl⟩
    · exact absurd (numbered ref new) (Nat.not_le.mpr older)
  · intro ref owner consumer tag mem held
    rw [items, List.mem_append] at mem
    rcases mem with old | new
    · exact .inr ⟨ref, old, rfl, held⟩
    · rw [ready ref new] at held
      cases held

theorem Follows.drop (base : before.baseOffset ≤ after.baseOffset)
    (next : after.nextOffset = before.nextOffset)
    (items : ∀ ref ∈ after.records.items, ref ∈ before.records.items) : Follows hand before after :=
  ⟨base, Nat.le_of_eq next.symm, fun mem _ => ⟨_, items _ mem, rfl, rfl⟩,
    fun mem held => .inr ⟨_, items _ mem, rfl, held⟩⟩

theorem Rewrote.follows {rewrite : StreamReference → StreamReference} {offsets : List Nat}
    (rewrote : Rewrote rewrite before offsets after) (redelivery : Redelivery rewrite)
    (handed : ∀ ref ∈ before.records.items, ref.offset ∈ offsets → ∀ owner consumer tag,
      (rewrite ref).delivery = .unacked owner consumer tag →
        hand owner consumer ∨ ref.delivery = .unacked owner consumer tag) :
        Follows hand before after := by
  refine ⟨Nat.le_of_eq rewrote.baseOffset.symm, Nat.le_of_eq rewrote.nextOffset.symm, ?_, ?_⟩
  · intro ref mem _
    rw [rewrote.items, List.mem_map] at mem
    obtain ⟨prior, inside, rfl⟩ := mem
    exact ⟨prior, inside, (redelivery.rewriteAt_offset prior).symm,
      (redelivery.rewriteAt_message prior).symm⟩
  · intro ref owner consumer tag mem held
    rw [rewrote.items, List.mem_map] at mem
    obtain ⟨prior, inside, rfl⟩ := mem
    have offset : (rewriteAt rewrite offsets prior).offset = prior.offset :=
      redelivery.rewriteAt_offset prior
    unfold rewriteAt at held
    split at held
    next changed =>
      exact (handed prior inside changed owner consumer tag held).imp_right fun kept =>
        ⟨prior, inside, offset.symm, kept⟩
    · exact .inr ⟨prior, inside, offset.symm, held⟩

end Follows

def Ledger.entry (ledger : Ledger) (message : MessageId) :
    Option (ProjectId × StoredPayloadRecord × BrokerPayloadSegment) :=
  ledger.payloads[message]?.bind fun payload =>
    ledger.segments[payload.segment]?.bind fun segment =>
      segment.descriptor.projectId.map fun project => (project, payload, segment)

variable {project : ProjectId}

theorem Ledger.entry_eq_some {ledger : Ledger} {msg : MessageId} {payload : StoredPayloadRecord}
    {seg : BrokerPayloadSegment} : ledger.entry msg = some (project, payload, seg) ↔
      ledger.payloads[msg]? = some payload ∧ ledger.segments[payload.segment]? = some seg ∧
        seg.descriptor.projectId = some project := by
  simp only [entry, bind_eq_some_iff, map_eq_some_iff, Prod.mk.injEq]
  constructor
  · rintro ⟨found, has, owner, owned, _, scope, rfl, rfl, rfl⟩
    exact ⟨has, owned, scope⟩
  · rintro ⟨has, owned, scope⟩
    exact ⟨payload, has, seg, owned, project, scope, rfl, rfl, rfl⟩

structure Isolated (project : ProjectId) (s s' : BrokerStateMachine) : Prop where
  topics : ∀ {name : Name}, name.1 ≠ project → s'.topics[name]? = s.topics[name]?
  exchanges : ∀ {name : Name}, name.1 ≠ project → s'.exchanges[name]? = s.exchanges[name]?
  queues : ∀ {name : Name}, name.1 ≠ project → s'.queues[name]? = s.queues[name]?
  bindings : ∀ {key : BindingKey}, key.1 ≠ project → s'.bindings[key]? = s.bindings[key]?
  groups : ∀ {name : Name}, name.1 ≠ project → s'.groups[name]? = s.groups[name]?
  leases : ∀ {key : ProjectId × Uuid}, key.1 ≠ project →
    s'.deliveryLeases[key]? = s.deliveryLeases[key]?
  consumers : ∀ {name : Name}, name.1 ≠ project → s'.queueConsumers[name]? = s.queueConsumers[name]?
  shelf : ∀ {slot : Slot}, slot.project ≠ project → s'.shelf slot = s.shelf slot
  payloads :
    ∀ {message : MessageId} {other : ProjectId} {row : StoredPayloadRecord × BrokerPayloadSegment},
    other ≠ project → (s'.ledger.entry message = some (other, row) ↔
      s.ledger.entry message = some (other, row))

/-- The streams go on from where they were, or are new; a queue keeps its stream, its kind and its
owner. -/
structure Evolves (hands : StreamId → Uuid → Nat → Prop) (s s' : BrokerStateMachine) : Prop where
  cursor : s.nextStreamId ≤ s'.nextStreamId
  streams : ∀ {id : StreamId} {after : StreamState}, s'.streams[id]? = some after →
    ∃ before, (s.streams[id]? = some before ∨ (s.nextStreamId < id ∧ before = StreamState.empty)) ∧
      Follows (hands id) before after
  queues : ∀ {name : Name} {after : Queue}, s'.queues[name]? = some after →
    s.nextStreamId < after.stream ∨ ∃ before, s.queues[name]? = some before ∧
      before.stream = after.stream ∧ before.kind = after.kind ∧
        before.exclusiveOwner = after.exclusiveOwner

structure Advances (project : ProjectId) (hands : StreamId → Uuid → Nat → Prop)
    (s s' : BrokerStateMachine) : Prop where
  isolated : Isolated project s s'
  evolves : Evolves hands s s'

def nobody : StreamId → Uuid → Nat → Prop := fun _ _ _ => False

abbrev Keeps {α : Type} (runtime : Runtime) (orderly : Prop) (project : ProjectId)
    (s : BrokerStateMachine) (after : BrokerStateMachine × α) : Prop :=
  Settled runtime orderly after.1 ∧ Advances project nobody s after.1

section Advances

theorem Isolated.refl (project : ProjectId) (s : BrokerStateMachine) : Isolated project s s :=
  ⟨fun _ => rfl, fun _ => rfl, fun _ => rfl, fun _ => rfl, fun _ => rfl, fun _ => rfl,
    fun _ => rfl, fun _ => rfl, fun _ => Iff.rfl⟩

variable {s s' s'' : BrokerStateMachine} {hands : StreamId → Uuid → Nat → Prop}

theorem Isolated.trans (first : Isolated project s s') (second : Isolated project s' s'') :
    Isolated project s s'' :=
  ⟨fun apart => (second.topics apart).trans (first.topics apart),
    fun apart => (second.exchanges apart).trans (first.exchanges apart),
    fun apart => (second.queues apart).trans (first.queues apart),
    fun apart => (second.bindings apart).trans (first.bindings apart),
    fun apart => (second.groups apart).trans (first.groups apart),
    fun apart => (second.leases apart).trans (first.leases apart),
    fun apart => (second.consumers apart).trans (first.consumers apart),
    fun apart => (second.shelf apart).trans (first.shelf apart),
    fun apart => (second.payloads apart).trans (first.payloads apart)⟩

theorem Evolves.of_same (cursor : s'.nextStreamId = s.nextStreamId) (streams : s'.streams = s.streams)
    (queues : s'.queues = s.queues) : Evolves hands s s' := by
  refine ⟨Nat.le_of_eq cursor.symm, ?_, ?_⟩
  · intro id after found
    exact ⟨after, .inl (streams ▸ found), .refl after⟩
  · intro name after found
    exact .inr ⟨after, queues ▸ found, rfl, rfl, rfl⟩

theorem Evolves.trans (first : Evolves hands s s') (second : Evolves hands s' s'') :
    Evolves hands s s'' := by
  refine ⟨Nat.le_trans first.cursor second.cursor, ?_, ?_⟩
  · intro id after found
    obtain ⟨between, origin, follows⟩ := second.streams found
    rcases origin with has | ⟨beyond, fresh⟩
    · obtain ⟨before, source, prior⟩ := first.streams has
      exact ⟨before, source, prior.trans follows⟩
    · exact ⟨between, .inr ⟨Nat.lt_of_le_of_lt first.cursor beyond, fresh⟩, follows⟩
  · intro name after found
    rcases second.queues found with beyond | ⟨between, has, stream, kind, owner⟩
    · exact .inl (Nat.lt_of_le_of_lt first.cursor beyond)
    · rcases first.queues has with beyond | ⟨before, source, sameStream, sameKind, sameOwner⟩
      · exact .inl (stream ▸ beyond)
      · exact .inr ⟨before, source, sameStream.trans stream, sameKind.trans kind, sameOwner.trans owner⟩

theorem Advances.refl (project : ProjectId) (s : BrokerStateMachine) : Advances project hands s s :=
  ⟨.refl project s, .of_same rfl rfl rfl⟩

theorem Advances.trans (first : Advances project hands s s') (second : Advances project hands s' s'') :
    Advances project hands s s'' :=
  ⟨first.isolated.trans second.isolated, first.evolves.trans second.evolves⟩

theorem Advances.mono {hands' : StreamId → Uuid → Nat → Prop}
    (advances : Advances project hands s s')
    (wider : ∀ {id owner consumer}, hands id owner consumer → hands' id owner consumer) :
    Advances project hands' s s' := by
  refine ⟨advances.isolated, { advances.evolves with streams := ?_ }⟩
  intro id after found
  obtain ⟨before, origin, follows⟩ := advances.evolves.streams found
  exact ⟨before, origin, follows.mono fun _ _ => wider⟩

theorem Advances.hand (advances : Advances project nobody s s') (hands : StreamId → Uuid → Nat → Prop) :
    Advances project hands s s' :=
  advances.mono False.elim

theorem Advances.recapture (advances : Advances project hands s s') (capture : List Event) :
    Advances project hands s { s' with capture } :=
  ⟨{ advances.isolated with }, { advances.evolves with }⟩

theorem Invariant.recapture {runtime : Runtime} {floating : MessageId → Prop} {missing : Nat → Nat}
    {stale : ProjectId × Uuid → Prop} {orderly : Prop}
    (inv : Invariant runtime orderly s floating missing stale) (capture : List Event) :
    Invariant runtime orderly { s with capture } floating missing stale :=
  { inv with }

theorem Owned.advances {slot : Slot} {stream : StreamState} {edit : StreamEdit}
    (owned : Owned s.topics s.queues s.streams s.nextStreamId) (here : At s slot edit.id stream)
    (follows : Follows (hands edit.id) stream edit.stream) :
    Advances slot.project hands s (s.commitStream edit) := by
  have shelf : (s.commitStream edit).shelf = Function.update s.shelf slot (some edit.stream) :=
    owned.shelfOf_insert here.slot edit.stream
  refine ⟨{ Isolated.refl slot.project s with shelf := ?_ }, Nat.le_refl _, ?_, ?_⟩
  · intro other apart
    rw [shelf, Function.update_of_ne]
    rintro rfl
    exact apart rfl
  · intro id after found
    change (s.streams.insert edit.id edit.stream)[id]? = some after at found
    rcases insert_eq_some.mp found with ⟨rfl, rfl⟩ | ⟨_, found⟩
    · exact ⟨stream, .inl here.stream, follows⟩
    · exact ⟨after, .inl found, .refl after⟩
  · intro name after found
    exact .inr ⟨after, found, rfl, rfl, rfl⟩

end Advances

end IronGraph.Broker
