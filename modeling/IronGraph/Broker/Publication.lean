import IronGraph.Broker.Allocate

/-!
The parts of a publication: a batch is routed, written to an immutable segment and allocated in the
segment, and references to its messages are appended to the streams.
-/

namespace IronGraph.Broker

open Std Outcome OrderedMap BrokerStateMachine List

variable {project : ProjectId} {pending : List PendingPayloadRecord} {recs : List KafkaBatchRecord}
  {desc : SegmentDescriptor} {locs : List SegmentRecordLocation} {checksums : List Digest}
  {s : BrokerStateMachine} {runtime : Runtime} {floating : MessageId → Prop}
  {stale : ProjectId × Uuid → Prop} {missing : Nat → Nat}

section Targets

variable {s : BrokerStateMachine}

theorem routedStreams_inProject {missing : Error} {targets : ExtTreeSet StreamId}
    {exchange routingKey : String}
    (routed : s.routedStreams missing project exchange routingKey = .ok targets) {id : StreamId}
    (mem : id ∈ targets) : InProject s project id := by
  have declared : ∀ {name : String} {queue : Queue}, s.queues[(project, name)]? = some queue →
      InProject s project queue.stream := by
    intro name queue found
    exact ⟨.queue (project, name), rfl, by simp [slotStream, found]⟩
  unfold routedStreams at routed
  split at routed
  · rw [Except.ok.injEq] at routed
    subst routed
    cases found : s.queues[(project, routingKey)]? with
    | none => simp [found] at mem
    | some queue =>
      simp only [found, Option.elim_some, ExtTreeSet.mem_ofList, contains_cons, contains_nil,
        Bool.or_false, beq_iff_eq] at mem
      exact mem ▸ declared found
  · obtain ⟨decl, _, routed⟩ := bind_eq_ok.mp routed
    simp only [pure, Except.pure, Except.ok.injEq] at routed
    subst routed
    simp only [ExtTreeSet.mem_ofList, contains_iff_mem, mem_filterMap] at mem
    obtain ⟨entry, _, bound⟩ := mem
    unfold boundStream at bound
    split at bound
    · rw [Option.map_eq_some_iff] at bound
      obtain ⟨queue, found, same⟩ := bound
      exact same ▸ declared found
    · cases bound

theorem partitionStream_inProject {topic : String} {part : Int} {id : StreamId}
    (located : s.partitionStream project topic part = .ok id) :
    0 ≤ part ∧ slotStream s.topics s.queues (.partition (project, topic) part.toNat) = some id := by
  unfold partitionStream at located
  obtain ⟨_, nonnegative, located⟩ := bind_eq_ok.mp located
  rw [require_eq_ok, decide_eq_true_eq] at nonnegative
  exact ⟨nonnegative, orElse_eq_ok.mp located⟩

end Targets

section Batches

variable {s : BrokerStateMachine}

theorem pendingRecords_meets (entries : List (IngressMetadata × Bytes)) :
    Meets (s.pendingRecords entries) (fun pending => pending =
      pendingOf s.nextMessageId entries) Overflow := by
  refine Meets.imp (Meets.mapM
    (fun (entry : (IngressMetadata × Bytes) × Nat) (record : PendingPayloadRecord) =>
      record =
        { id := s.nextMessageId + (entry.2 + 1), ingress := entry.1.1, payload := entry.1.2 }) ?_) ?_
  · rintro ⟨⟨ingress, payload⟩, index⟩ _
    apply Meets.orElse
    · intro _
      simp [Overflow, overflowErrors]
    intro id sum
    rw [← (checkedSum_eq_some.mp sum).1]
    exact rfl
  · intro pending pointwise
    have length : pending.length = entries.length := by rw [← pointwise.length_eq, length_zipIdx]
    apply ext_getElem?
    intro index
    rw [getElem?_pendingOf]
    cases found : pending[index]? with
    | none =>
      rw [getElem?_eq_none_iff, length, ← getElem?_eq_none_iff] at found
      rw [found, Option.map_none]
    | some record =>
      obtain ⟨⟨⟨ingress, payload⟩, pos⟩, listed, rfl⟩ := related_getElem? pointwise found
      rw [getElem?_zipIdx, Option.map_eq_some_iff] at listed
      obtain ⟨entry, has, same⟩ := listed
      simp only [Prod.mk.injEq, Nat.zero_add] at same
      obtain ⟨rfl, rfl⟩ := same
      rw [has, Option.map_some, Option.some.injEq, PendingPayloadRecord.mk.injEq]
      exact ⟨show (s.nextMessageId + (index + 1) : Nat) =
        s.nextMessageId + 1 + index by omega, rfl, rfl⟩

/-- A batch as it was written: each of its payloads can be read back from any segment with this
descriptor and this shared ingress. -/
structure Lodged (runtime : Runtime) (project : ProjectId) (timestampMs : Int)
    (shared : Option IngressMetadata)
    (pending : List PendingPayloadRecord) (descriptor : SegmentDescriptor)
    (locations : List SegmentRecordLocation) : Prop where
  family : descriptor.family = .brokerPayload
  length : locations.length = pending.length
  lodges : ∀ {index : Nat} {record : PendingPayloadRecord} {location : SegmentRecordLocation}
    {owner : BrokerPayloadSegment}, pending[index]? = some record → locations[index]? = some location →
      record.payload.length ≤ maxPayloadBytes → owner.descriptor = descriptor →
      owner.sharedAmqpIngress = shared → ∀ segment,
        Lodges runtime project timestampMs record
          (record.stored runtime timestampMs segment location) owner

variable (lawful : Lawful runtime) (timestampMs : Int)
include lawful

theorem encodePayloadSegmentRecord_meets {fail : Error → Prop} (pending : PendingPayloadRecord) :
    Meets (encodePayloadSegmentRecord runtime project timestampMs pending) (fun record => ∃ encoded,
        record = { kind := brokerPayloadSegmentKind, payload := brokerPayloadRecordMagic ++ encoded } ∧
        runtime.decodeCompact encoded = .ok (segmentRecord runtime project timestampMs pending) ∧
        pending.payload.length ≤ encoded.length) fail := by
  obtain ⟨encoded, encodes, decodes, long⟩ :=
    lawful.encoded (segmentRecord runtime project timestampMs pending)
  unfold encodePayloadSegmentRecord
  change Meets (runtime.encodeCompact (segmentRecord runtime project timestampMs pending) >>= _) _ _
  rw [encodes]
  exact ⟨encoded, rfl, decodes, long⟩

theorem writePayloadSegmentBatch_meets (nonempty : pending ≠ []) (shared : Option IngressMetadata) :
    Meets (writePayloadSegmentBatch runtime project timestampMs pending)
      (fun stored => Lodged runtime project timestampMs shared pending stored.1 stored.2) Overflow := by
  unfold writePayloadSegmentBatch
  apply Meets.require (by simpa using nonempty)
  apply Meets.bind (Meets.mapM _ fun record _ =>
    encodePayloadSegmentRecord_meets lawful timestampMs record)
  intro encoded pointwise
  have filled : encoded ≠ [] := by
    rw [← length_pos_iff, ← pointwise.length_eq, length_pos_iff]
    exact nonempty
  refine Meets.imp (lawful.written project encoded filled) ?_
  rintro ⟨desc, locs⟩ written
  refine ⟨written.family, written.length.trans pointwise.length_eq.symm, ?_⟩
  intro index record loc owner listed located small described _ seg
  obtain ⟨_, has, bytes, rfl, decodes, long⟩ := related_getElem? pointwise.flip listed
  exact written.lodges_compact located has decodes long described small seg

theorem writeRawAmqpPayloadSegmentBatch_meets {ingress : IngressMetadata} (nonempty : pending ≠ [])
    (amqp : ingress.isAmqp = true) (uniform : ∀ record ∈ pending, record.ingress = ingress) :
    Meets (writeRawAmqpPayloadSegmentBatch runtime project pending)
      (fun stored => Lodged runtime project timestampMs (some ingress) pending stored.1 stored.2)
        Overflow := by
  unfold writeRawAmqpPayloadSegmentBatch
  apply Meets.require
  · simp only [Bool.and_eq_true, Bool.not_eq_true', isEmpty_eq_false_iff, all_eq_true]
    exact ⟨nonempty, fun record mem => uniform record mem ▸ amqp⟩
  refine Meets.imp (lawful.written project _ (by simpa using nonempty)) ?_
  rintro ⟨desc, locs⟩ written
  refine ⟨written.family, written.length.trans (length_map ..), ?_⟩
  intro index record loc owner listed located small described ingressOf seg
  have same := uniform record (mem_of_getElem? listed)
  exact written.lodges_rawAmqp located (by rw [getElem?_map, listed]; rfl) described
    (ingressOf.trans (congrArg some same.symm)) (same ▸ amqp) small timestampMs seg

omit lawful

theorem mem_uniquePayloads {record : KafkaBatchRecord} (mem : record ∈ recs) :
    record.payload ∈ uniquePayloads recs := by
  -- The fold only ever adds payloads, and it adds each record's own.
  have grows : ∀ (rest : List KafkaBatchRecord) (unique : List Bytes),
      (∀ payload ∈ unique, payload ∈ rest.foldl
        (fun unique record => if unique.contains record.payload then unique
          else unique ++ [record.payload])
        unique) ∧
      ∀ record ∈ rest, record.payload ∈ rest.foldl
        (fun unique record => if unique.contains record.payload then unique
          else unique ++ [record.payload])
        unique := by
    intro rest
    induction rest with
    | nil => exact fun unique => ⟨fun _ inside => inside, nofun⟩
    | cons first rest ih =>
      intro unique
      rw [foldl_cons]
      obtain ⟨kept, added⟩ := ih
        (if unique.contains first.payload then unique else unique ++ [first.payload])
      refine ⟨?_, ?_⟩
      · intro payload inside
        apply kept
        split
        · exact inside
        · exact mem_append_left _ inside
      · intro record inside
        rcases mem_cons.mp inside with rfl | later
        · apply kept
          split
          next contained => exact contains_iff_mem.mp contained
          · simp
        · exact added record later
  exact (grows recs []).2 record mem

structure RawLodged (runtime : Runtime) (project : ProjectId) (records : List KafkaBatchRecord)
    (descriptor : SegmentDescriptor) (locations : List SegmentRecordLocation)
    (checksums : List Digest) : Prop where
  family : descriptor.family = .brokerPayload
  located : locations.length = records.length
  summed : List.Forall₂ (fun (record : KafkaBatchRecord) checksum =>
    checksum = runtime.hash record.payload) records checksums
  lodges :
    ∀ {index : Nat} {record : KafkaBatchRecord} {location : SegmentRecordLocation} {createTimeMs : Int}
    {owner : BrokerPayloadSegment}, records[index]? = some record → locations[index]? = some location →
      record.payload.length ≤ maxPayloadBytes →
        record.ingress = .kafka (some createTimeMs) none ∅ false →
      owner.descriptor = descriptor → owner.sharedKafkaIngress = some (.kafka none none ∅ false) →
      ∀ (id : MessageId) (timestampMs : Int) (segment : Nat),
        Lodges runtime project timestampMs { id, ingress := record.ingress, payload := record.payload }
          (PendingPayloadRecord.stored runtime timestampMs segment
            { id, ingress := record.ingress, payload := record.payload } location) owner

theorem RawLodged.of_written {stored : List SegmentRecordLocation} (payloads : List Bytes)
    (written : Written runtime project
      (payloads.map fun payload => { kind := brokerRawKafkaPayloadSegmentKind, payload }) desc stored)
    (located : List.Forall₂ (fun (record : KafkaBatchRecord) loc =>
      ∃ pos : Nat, payloads[pos]? = some record.payload ∧ stored[pos]? = some loc)
      recs locs)
    (summed : List.Forall₂ (fun (record : KafkaBatchRecord) checksum =>
      checksum = runtime.hash record.payload)
      recs checksums) : RawLodged runtime project recs desc locs checksums := by
  refine ⟨written.family, located.length_eq.symm, summed, ?_⟩
  intro index record loc createTimeMs owner listed placed small plain described shared id
    timestampMs seg
  obtain ⟨_, same, pos, payload, place⟩ := related_getElem? located placed
  rw [listed, Option.some.injEq] at same
  subst same
  exact written.lodges_rawKafka place (by rw [getElem?_map, payload]; rfl)
    described shared plain small timestampMs seg

theorem writeRawKafkaPayloadSegmentBatch_meets (lawful : Lawful runtime)
    (sharing : kafkaBatchCanShareIngress recs = true) :
    Meets (writeRawKafkaPayloadSegmentBatch runtime project recs)
      (fun stored => RawLodged runtime project recs stored.1 stored.2.1 stored.2.2) Overflow := by
  unfold writeRawKafkaPayloadSegmentBatch
  apply Meets.require sharing
  have nonempty : recs ≠ [] := by
    simp only [kafkaBatchCanShareIngress, Bool.and_eq_true, Bool.not_eq_true',
      isEmpty_eq_false_iff] at sharing
    exact sharing.1
  apply Meets.orElse
  · intro absent
    exact absurd (head?_eq_none_iff.mp absent) nonempty
  intro first front
  split
  next uniform =>
    apply Meets.bind (lawful.written project _ (cons_ne_nil _ _))
    rintro ⟨desc, stored⟩ written
    apply Meets.orElse
    · intro absent
      have length : stored.length = 1 := written.length
      simp [head?_eq_none_iff.mp absent] at length
    intro loc place
    have same : ∀ record ∈ recs, record.payload = first.payload := by
      cases recs with
      | nil => exact absurd rfl nonempty
      | cons head tail =>
        simp only [head?_cons, Option.some.injEq] at front
        subst front
        intro record mem
        rcases mem_cons.mp mem with rfl | later
        · rfl
        · simpa using all_eq_true.mp uniform record later
    refine RawLodged.of_written [first.payload] written ?_ ?_
    · rw [forall₂_map_right_iff, forall₂_same]
      intro record mem
      exact ⟨0, by rw [same record mem]; rfl, by rw [← head?_eq_getElem?]; exact place⟩
    · rw [forall₂_map_right_iff, forall₂_same]
      intro record mem
      rw [same record mem]
  · have filled : (uniquePayloads recs).map
        (fun payload => ({ kind := brokerRawKafkaPayloadSegmentKind, payload } : SegmentRecord)) ≠
          [] := by
      obtain ⟨record, mem⟩ := exists_mem_of_ne_nil recs nonempty
      exact ne_nil_of_mem (mem_map_of_mem (mem_uniquePayloads mem))
    apply Meets.bind (lawful.written project _ filled)
    rintro ⟨desc, stored⟩ written
    have found : ∀ record ∈ recs,
        (uniquePayloads recs)[(uniquePayloads recs).idxOf record.payload]? = some record.payload :=
      fun record mem => getElem?_idxOf (mem_uniquePayloads mem)
    have inside : ∀ index ∈ recs.map (fun record => (uniquePayloads recs).idxOf record.payload),
        index < (uniquePayloads recs).length := by
      intro index mem
      obtain ⟨record, listed, rfl⟩ := mem_map.mp mem
      exact idxOf_lt_length_iff.mpr (mem_uniquePayloads listed)
    have length : stored.length = (uniquePayloads recs).length := written.length.trans (length_map ..)
    apply Meets.bind (Meets.mapM (fun index loc => stored[index]? = some loc) ?_)
    · intro locs located
      apply Meets.bind (Meets.mapM
        (fun index checksum => ((uniquePayloads recs).map runtime.hash)[index]? = some checksum) ?_)
      · intro checksums summed
        rw [forall₂_map_left_iff] at located summed
        refine RawLodged.of_written (uniquePayloads recs) written ?_ ?_
        · exact ((forall₂_and_left _ _).mpr ⟨found, located⟩).imp fun record loc both => ⟨_, both⟩
        · refine ((forall₂_and_left _ _).mpr ⟨found, summed⟩).imp ?_
          rintro record checksum ⟨payload, sum⟩
          rw [getElem?_map, payload, Option.map_some, Option.some.injEq] at sum
          exact sum.symm
      · intro index mem
        rw [getElem?_eq_getElem (by simpa using inside index mem)]
        exact rfl
    · intro index mem
      rw [getElem?_eq_getElem (length ▸ inside index mem)]
      exact rfl

theorem validatePayload_eq_ok {payload : Bytes} (valid : validatePayload payload = .ok ()) :
    payload.length ≤ maxPayloadBytes := by
  rwa [validatePayload, require_eq_ok, decide_eq_true_eq] at valid

theorem validateKafkaBatch_eq_ok (valid : validateKafkaBatch recs = .ok ()) :
    recs ≠ [] ∧ recs.length ≤ 1000000 ∧ ∀ record ∈ recs, record.payload.length ≤ maxPayloadBytes := by
  unfold validateKafkaBatch at valid
  obtain ⟨_, sized, valid⟩ := bind_eq_ok.mp valid
  obtain ⟨_, walked, _⟩ := bind_eq_ok.mp valid
  simp only [require_eq_ok, Bool.and_eq_true, Bool.not_eq_true', isEmpty_eq_false_iff,
    decide_eq_true_eq] at sized
  refine ⟨sized.1, sized.2, fun record mem => ?_⟩
  obtain ⟨_, _, passed⟩ := foldlM_passed walked mem
  obtain ⟨_, small, _⟩ := bind_eq_ok.mp passed
  exact validatePayload_eq_ok small

theorem validateAmqpBatch_eq_ok {recs : List AmqpBatchRecord}
    (valid : validateAmqpBatch recs = .ok ()) : recs.length ≤ 1000000 ∧
    ∀ record ∈ recs, record.payload.length ≤ maxPayloadBytes := by
  unfold validateAmqpBatch at valid
  obtain ⟨_, sized, valid⟩ := bind_eq_ok.mp valid
  obtain ⟨_, walked, _⟩ := bind_eq_ok.mp valid
  simp only [require_eq_ok, Bool.and_eq_true, decide_eq_true_eq] at sized
  refine ⟨sized.2, fun record mem => ?_⟩
  obtain ⟨_, _, passed⟩ := foldlM_passed walked mem
  obtain ⟨_, small, _⟩ := bind_eq_ok.mp passed
  exact validatePayload_eq_ok small

theorem validateAmqpUniformBatch_eq_ok {properties headers : Fields} {payloads : List Bytes}
    (valid : validateAmqpUniformBatch properties headers payloads = .ok ()) :
    payloads ≠ [] ∧ payloads.length ≤ 1000000 ∧ ∀ payload ∈ payloads, payload.length ≤
      maxPayloadBytes := by
  unfold validateAmqpUniformBatch at valid
  obtain ⟨_, sized, valid⟩ := bind_eq_ok.mp valid
  obtain ⟨_, _, valid⟩ := bind_eq_ok.mp valid
  obtain ⟨_, walked, _⟩ := bind_eq_ok.mp valid
  simp only [require_eq_ok, Bool.and_eq_true, Bool.not_eq_true', isEmpty_eq_false_iff,
    decide_eq_true_eq] at sized
  refine ⟨sized.1, sized.2, fun payload mem => ?_⟩
  obtain ⟨_, _, passed⟩ := foldlM_passed walked mem
  obtain ⟨_, small, _⟩ := bind_eq_ok.mp passed
  exact validatePayload_eq_ok small

end Batches

def Relogged (s s' : BrokerStateMachine) : Prop := s' = { s with
    payloads := s'.payloads
    payloadSegments := s'.payloadSegments
    nextMessageId := s'.nextMessageId
    nextPayloadSegmentId := s'.nextPayloadSegmentId
    streams := s'.streams
    capture := s'.capture }

theorem Relogged.trans {first second third : BrokerStateMachine} (before : Relogged first second)
    (after : Relogged second third) : Relogged first third := by
  unfold Relogged at *
  rw [after, before]

/-- Messages were numbered and references appended to the logs; all else that is no payload stays. -/
structure Logged (project : ProjectId) (s s' : BrokerStateMachine) (messages : Nat)
    (drafts : StreamId → List Draft) : Prop where
  frame : Relogged s s'
  advances : Advances project nobody s s'
  cursor : s'.nextMessageId = s.nextMessageId + messages
  lasts : Lasts s s'
  absent : ∀ {id : StreamId}, s.streams[id]? = none → s'.streams[id]? = none
  logs : ∀ {id : StreamId} {stream : StreamState}, s.streams[id]? = some stream →
    ∃ stream', s'.streams[id]? = some stream' ∧ stream'.baseOffset = stream.baseOffset ∧
      stream'.nextOffset = stream.nextOffset + (drafts id).length ∧
      stream'.records.items = stream.records.items ++ placeAll stream.nextOffset (drafts id)

structure Published (runtime : Runtime) (project : ProjectId) (timestampMs : Int)
    (s s' : BrokerStateMachine)
    (pending : List PendingPayloadRecord) (drafts : StreamId → List Draft) : Prop extends
    Logged project s s' pending.length drafts where
  reads : ∀ record ∈ pending, Reads runtime s' record.id
    (segmentRecord runtime project timestampMs record)

section Published

variable {orderly : Prop} {s' s'' : BrokerStateMachine} {timestampMs : Int}
  {drafts more wanted : StreamId → List Draft} {pending recs later : List PendingPayloadRecord}

theorem Logged.trans {first second : Nat} (before : Logged project s s' first drafts)
    (after : Logged project s' s'' second more) :
    Logged project s s'' (first + second) (fun id => drafts id ++ more id) := by
  refine ⟨before.frame.trans after.frame, before.advances.trans after.advances, ?_,
    fun _ _ known => after.lasts _ _ (before.lasts _ _ known),
      fun absent => after.absent (before.absent absent), ?_⟩
  · rw [after.cursor, before.cursor, Nat.add_assoc]
  · intro id stream found
    obtain ⟨middle, has, base, next, items⟩ := before.logs found
    obtain ⟨final, last, sameBase, reached, all⟩ := after.logs has
    refine ⟨final, last, sameBase.trans base, ?_, ?_⟩
    · rw [reached, next, length_append, Nat.add_assoc]
    · rw [all, items, next, placeAll_append, append_assoc]

theorem Published.trans (first : Published runtime project timestampMs s s' pending drafts)
    (second : Published runtime project timestampMs s' s'' later more) :
    Published runtime project timestampMs s s'' (pending ++ later)
      (fun id => drafts id ++ more id) := by
  refine ⟨length_append ▸ first.toLogged.trans second.toLogged, fun record mem => ?_⟩
  rcases mem_append.mp mem with old | new
  · exact (first.reads record old).lasts second.lasts
  · exact second.reads record new

theorem Published.congr (done : Published runtime project timestampMs s s' pending drafts)
    (same : pending = recs)
    (each : ∀ id, drafts id = wanted id) : Published runtime project timestampMs s s' recs wanted :=
  same ▸ funext each ▸ done

theorem Published.of_ledger (frame : Reledgered s s') (advances : Advances project nobody s s')
    (cursor : s'.nextMessageId = s.nextMessageId + pending.length) (lasts : Lasts s s')
    (reads : ∀ record ∈ pending, Reads runtime s' record.id
      (segmentRecord runtime project timestampMs record)) :
    Published runtime project timestampMs s s' pending (fun _ => []) := by
  have streams : s'.streams = s.streams := by rw [frame]
  refine ⟨⟨?_, advances, cursor, lasts, fun absent => streams ▸ absent, ?_⟩, reads⟩
  · unfold Relogged
    rw [frame]
  · intro id stream found
    exact ⟨stream, streams ▸ found, rfl, rfl, by simp [placeAll]⟩

theorem Published.opened (frame : Reledgered s s') (advances : Advances project nobody s s')
    (cursor : s'.nextMessageId = s.nextMessageId) (lasts : Lasts s s') :
    Published runtime project timestampMs s s' [] (fun _ => []) :=
  .of_ledger frame advances cursor lasts nofun

theorem BatchAllocated.published
    (batch : BatchAllocated runtime orderly s s' project timestampMs pending floating missing stale) :
    Published runtime project timestampMs s s' pending (fun _ => []) :=
  .of_ledger batch.frame batch.advances batch.cursor batch.lasts batch.reads

theorem Allocated.published {record : PendingPayloadRecord}
    (numbered : s.nextMessageId + 1 = record.id)
    (allocated : Allocated runtime orderly s s' project timestampMs record floating missing stale) :
    Published runtime project timestampMs s s' [record] (fun _ => []) :=
  .of_ledger allocated.frame allocated.advances (allocated.cursor.trans numbered.symm) allocated.lasts
    fun _ mem => mem_singleton.mp mem ▸ allocated.reads

theorem Appended.published (runtime : Runtime) (timestampMs : Int)
    (appended : Appended project s s' drafts) :
    Published runtime project timestampMs s s' [] drafts := by
  have ledger := appended.frame.ledger
  refine ⟨⟨?_, appended.advances, congrArg Ledger.lastMessage ledger,
    fun _ _ known => ledger ▸ known, appended.absent, appended.logs⟩, nofun⟩
  unfold Relogged
  rw [appended.frame]

end Published

section Batch

variable {orderly : Prop} {owner : BrokerPayloadSegment}

theorem InProject.reledger {s' : BrokerStateMachine} {id : StreamId} (target : InProject s project id)
    (reledgered : Reledgered s s') : InProject s' project id := by
  rw [reledgered]
  exact target

def KafkaBatchRecord.entry (record : KafkaBatchRecord) : IngressMetadata × Bytes :=
  (record.ingress, record.payload)

def KafkaBatchRecord.Plain (record : KafkaBatchRecord) : Prop :=
  ∃ createTimeMs, record.createTimeMs = some createTimeMs ∧
    record.ingress = .kafka (some createTimeMs) none ∅ false

theorem kafkaBatchCanShareIngress_iff :
    kafkaBatchCanShareIngress recs = true ↔ recs ≠ [] ∧ ∀ record ∈ recs, record.Plain := by
  have plain : ∀ record : KafkaBatchRecord, (record.createTimeMs.isSome && record.key.isNone &&
      record.headers.isEmpty && !record.valueIsNull) = true ↔ record.Plain := by
    rintro ⟨createTimeMs, key, headers, payload, valueIsNull⟩
    simp only [KafkaBatchRecord.Plain, KafkaBatchRecord.ingress, Bool.and_eq_true,
      Option.isSome_iff_exists, Option.isNone_iff_eq_none, ExtTreeMap.isEmpty_iff,
        Bool.not_eq_true', IngressMetadata.kafka.injEq]
    constructor
    · rintro ⟨⟨⟨⟨time, rfl⟩, rfl⟩, rfl⟩, rfl⟩
      exact ⟨time, rfl, rfl, rfl, rfl, rfl⟩
    · rintro ⟨time, rfl, _, rfl, rfl, rfl⟩
      exact ⟨⟨⟨⟨time, rfl⟩, rfl⟩, rfl⟩, rfl⟩
  simp only [kafkaBatchCanShareIngress, Bool.and_eq_true, Bool.not_eq_true', isEmpty_eq_false_iff,
    all_eq_true, ← plain, Bool.and_eq_true]

theorem allocateRawKafkaMessages_meets {seg : Nat} (timestampMs : Int)
    (entries : List (KafkaBatchRecord × SegmentRecordLocation × Digest))
    (inv : Invariant runtime orderly s floating (owed seg entries.length) stale)
    (has : s.payloadSegments[seg]? = some owner) (plain : ∀ entry ∈ entries, entry.1.Plain)
    (summed : ∀ entry ∈ entries, entry.2.2 = runtime.hash entry.1.payload)
    (lodges : ∀ entry ∈ entries, ∀ id : MessageId,
      Lodges runtime project timestampMs { id, ingress := entry.1.ingress, payload := entry.1.payload }
        (PendingPayloadRecord.stored runtime timestampMs seg
          { id, ingress := entry.1.ingress, payload := entry.1.payload } entry.2.1) owner) :
    Meets (allocateRawKafkaMessages timestampMs seg entries s)
      (fun allocated => allocated.2 = (pendingOf s.nextMessageId (entries.map (·.1.entry))).map (·.id) ∧
        BatchAllocated runtime orderly s allocated.1 project timestampMs
          (pendingOf s.nextMessageId (entries.map (·.1.entry))) floating (fun _ => 0) stale)
      Overflow := by
  induction entries generalizing s floating with
  | nil =>
    rw [length_nil, owed_zero] at inv
    exact ⟨rfl, .nil inv⟩
  | cons entry rest ih =>
    obtain ⟨record, loc, checksum⟩ := entry
    obtain ⟨createTimeMs, timed, ingress⟩ := plain (record, loc, checksum) (by simp)
    have sum : checksum = runtime.hash record.payload := summed (record, loc, checksum) (by simp)
    subst sum
    refine meets_checkedSum (by simp [overflowErrors]) fun _ => ?_
    apply Meets.orElse
    · intro absent
      cases timed.symm.trans absent
    intro found same
    have equal : found = createTimeMs := Option.some.inj (same.symm.trans timed)
    subst equal
    have stored := allocateStoredMessageInSegment_meets rest.length inv has rfl
      (lodges (record, loc, runtime.hash record.payload) (by simp) (s.nextMessageId + 1))
    rw [show kafkaTime record.ingress timestampMs = some found by rw [ingress]; rfl] at stored
    apply Meets.bind stored
    rintro ⟨middle, msg⟩ ⟨(rfl : msg = s.nextMessageId + 1), allocated⟩
    apply Meets.bind (ih allocated.invariant (allocated.segments ▸ has)
      (fun entry mem => plain entry (mem_cons_of_mem _ mem))
      (fun entry mem => summed entry (mem_cons_of_mem _ mem))
      fun entry mem => lodges entry (mem_cons_of_mem _ mem))
    rintro ⟨final, msgs⟩ ⟨(rfl : msgs = _), batch⟩
    have cursor : middle.nextMessageId = s.nextMessageId + 1 := allocated.cursor
    rw [cursor] at batch ⊢
    rw [map_cons, pendingOf_cons]
    exact ⟨rfl, BatchAllocated.cons rfl allocated batch⟩

theorem appendInitialToStreams_meets {msgs : List MessageId} (targets : List StreamId)
    (distinct : targets.Nodup) (inv : Invariant runtime orderly s floating missing stale)
    (inProject : ∀ id ∈ targets, InProject s project id)
    (charged : ∀ msg ∈ msgs, ∃ bytes, s.ledger.billed msg = some (project, bytes)) :
    Meets (appendInitialToStreams msgs targets s)
      (fun s' => Appended project s s' (fun id => if id ∈ targets then msgs.map Draft.initial else []) ∧
        Invariant runtime orderly s' (fun other => floating other ∧
          (other ∈ msgs → targets = [])) missing stale)
      Overflow := by
  induction targets generalizing s floating with
  | nil =>
    exact ⟨(Appended.refl project s).congr fun _ => by simp,
      inv.weaken (fun _ floats => ⟨floats, fun _ => rfl⟩) fun _ outlived => outlived⟩
  | cons target rest ih =>
    obtain ⟨fresh, apart⟩ := nodup_cons.mp distinct
    apply Meets.bind (appendInitialReferencesBatch_meets inv (inProject target (by simp)) charged)
    rintro ⟨middle, offset⟩ ⟨appended, _, after⟩
    refine Meets.imp (ih apart after ?_ ?_) ?_
    · exact fun id mem => (inProject id (mem_cons_of_mem _ mem)).restream appended.frame
    · exact fun msg mem => appended.frame.ledger ▸ charged msg mem
    · rintro final ⟨continued, settled⟩
      refine ⟨appended.targets continued fresh, settled.weaken ?_ fun _ outlived => outlived⟩
      rintro other ⟨⟨floats, apart⟩, _⟩
      exact ⟨floats, fun mem => absurd mem apart⟩

theorem Lodged.zip_lodges {timestampMs : Int} {shared : Option IngressMetadata}
    (lodged : Lodged runtime project timestampMs shared pending desc locs)
    (small : ∀ record ∈ pending, record.payload.length ≤ maxPayloadBytes)
    (described : owner.descriptor = desc) (ingress : owner.sharedAmqpIngress = shared) (seg : Nat) :
    ∀ entry ∈ pending.zip locs,
      Lodges runtime project timestampMs entry.1 (entry.1.stored runtime timestampMs seg entry.2)
        owner := by
  intro entry mem
  obtain ⟨index, found⟩ := mem_iff_getElem?.mp mem
  obtain ⟨listed, located⟩ := getElem?_zip_eq_some.mp found
  exact lodged.lodges listed located (small _ (mem_of_getElem? listed)) described ingress seg

theorem RawLodged.zip_lodges (lodged : RawLodged runtime project recs desc locs checksums)
    (small : ∀ record ∈ recs, record.payload.length ≤ maxPayloadBytes)
    (plain : ∀ record ∈ recs, record.Plain)
    (described : owner.descriptor = desc)
    (shared : owner.sharedKafkaIngress = some (.kafka none none ∅ false))
    (timestampMs : Int) (seg : Nat) :
    ∀ entry ∈ recs.zip (locs.zip checksums), entry.2.2 = runtime.hash entry.1.payload ∧
      ∀ id : MessageId, Lodges runtime project timestampMs
        { id, ingress := entry.1.ingress, payload := entry.1.payload }
        (PendingPayloadRecord.stored runtime timestampMs seg
          { id, ingress := entry.1.ingress, payload := entry.1.payload } entry.2.1) owner := by
  intro entry mem
  obtain ⟨index, listed⟩ := mem_iff_getElem?.mp mem
  obtain ⟨record, pair⟩ := getElem?_zip_eq_some.mp listed
  obtain ⟨loc, checksum⟩ := getElem?_zip_eq_some.mp pair
  have inside := mem_of_getElem? record
  obtain ⟨_, same, sum⟩ := related_getElem? lodged.summed checksum
  rw [record, Option.some.injEq] at same
  subst same
  obtain ⟨createTimeMs, _, ingress⟩ := plain _ inside
  exact ⟨sum, fun id => lodged.lodges record loc (small _ inside)
    ingress described shared id timestampMs seg⟩

theorem zip_pendingOf {entries : List (IngressMetadata × Bytes)} {α : Type} {locs : List α}
    {index : Nat} {entry : PendingPayloadRecord × α} {next : Nat}
    (found : ((pendingOf next entries).zip locs)[index]? = some entry) :
    next + 1 + index = entry.1.id := by
  have listed := (getElem?_zip_eq_some.mp found).1
  rw [getElem?_pendingOf, Option.map_eq_some_iff] at listed
  obtain ⟨_, _, same⟩ := listed
  rw [← same]

theorem Invariant.settledBatch {msgs : List MessageId} (inv : Invariant runtime orderly s
      (fun other => (False ∨ other ∈ msgs) ∧ other ∉ msgs) (fun _ => 0) fun _ => False) :
    Settled runtime orderly s :=
  inv.weaken (fun _ ⟨floats, apart⟩ => floats.elim False.elim apart) fun _ outlived => outlived

end Batch

end IronGraph.Broker
