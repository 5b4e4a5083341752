import IronGraph.Broker.Append

/-!
Allocation of payload segments and of messages in them, and why a message can be read back from the
segment its batch was written to.
-/

namespace IronGraph.Broker

open Std Outcome OrderedMap BrokerStateMachine Option

variable {runtime : Runtime} {project : ProjectId} {owner : BrokerPayloadSegment}
  {descriptor : SegmentDescriptor} {location : SegmentRecordLocation} {time : Int}

section Housing

variable {index : Nat} {pending : PendingPayloadRecord}

theorem Written.scope {recs : List SegmentRecord} {locs : List SegmentRecordLocation}
    {record : SegmentRecord} {payloadLen : Nat}
    (written : Written runtime project recs descriptor locs)
    (located : locs[index]? = some location) (listed : recs[index]? = some record)
    (described : owner.descriptor = descriptor) (small : payloadLen ≤ maxPayloadBytes)
    (fits : payloadLen ≤ record.payload.length) (id : MessageId) (time : Int) (checksum : Digest)
    (kafkaTimeMs : Option Int) (seg : Nat) : payloadInScope project
      (storedPayload id time payloadLen checksum kafkaTimeMs seg location) owner = true := by
  obtain ⟨long, inside, _⟩ := written.extent located listed
  have bounded := written.bounded
  have sum : checkedSum location.offset location.bytes = some (location.offset + location.bytes) :=
    checkedSum_eq_some.mpr ⟨rfl, by omega⟩
  simp only [payloadInScope, storedPayload, described, written.family,
    written.projectId, sum, beq_self_eq_true, any_some, Bool.and_eq_true]
  exact ⟨⟨⟨⟨⟨trivial, trivial⟩, decide_eq_true small⟩,
    decide_eq_true (Nat.le_trans fits long)⟩, trivial⟩, decide_eq_true inside⟩

def segmentRecord (runtime : Runtime) (project : ProjectId) (timestampMs : Int)
    (pending : PendingPayloadRecord) : PayloadSegmentRecord :=
  { project
    id := pending.id
    resolvedTimeMs := timestampMs
    ingress := pending.ingress
    payload := pending.payload
    checksum := runtime.hash pending.payload }

def PendingPayloadRecord.stored (runtime : Runtime) (timestampMs : Int) (segment : Nat)
    (pending : PendingPayloadRecord) (location : SegmentRecordLocation) : StoredPayloadRecord :=
  storedPayload pending.id timestampMs pending.payload.length (runtime.hash pending.payload)
    (kafkaTime pending.ingress timestampMs) segment location

structure Lodges (runtime : Runtime) (project : ProjectId) (timestampMs : Int)
    (pending : PendingPayloadRecord)
    (payload : StoredPayloadRecord) (owner : BrokerPayloadSegment) : Prop where
  scope : payloadInScope project payload owner = true
  loads : loadRecord runtime owner payload = .ok (segmentRecord runtime project timestampMs pending)

theorem Lodges.housed {payload : StoredPayloadRecord}
    (lodges : Lodges runtime project time pending payload owner) :
    Housed runtime project payload owner :=
  ⟨lodges.scope, _, lodges.loads⟩

variable {recs : List SegmentRecord} {locs : List SegmentRecordLocation}
  (written : Written runtime project recs descriptor locs) (located : locs[index]? = some location)
include written located

theorem Written.lodges_rawAmqp
    (listed : recs[index]? =
      some { kind := brokerRawAmqpPayloadSegmentKind, payload := pending.payload })
    (described : owner.descriptor = descriptor) (shared : owner.sharedAmqpIngress =
      some pending.ingress)
    (amqp : pending.ingress.isAmqp = true) (small : pending.payload.length ≤
      maxPayloadBytes) (time : Int)
    (seg : Nat) :
    Lodges runtime project time pending (pending.stored runtime time seg location) owner := by
  refine ⟨written.scope located listed described small (Nat.le_refl _) _ _ _ _ _, ?_⟩
  obtain ⟨_, _, read⟩ := written.extent located listed
  have untimed : kafkaTime pending.ingress time = none := by
    cases sort : pending.ingress with
    | kafka => simp [sort, IngressMetadata.isAmqp] at amqp
    | amqp => rfl
  have kind : ¬ brokerRawAmqpPayloadSegmentKind = brokerPayloadSegmentKind := by decide
  simp [loadRecord, PendingPayloadRecord.stored, storedPayload, described, read,
    materializeStoredPayload, kind, shared, amqp, written.projectId, validateLoadedPayload,
      written.family, untimed,
    segmentRecord, orElse, require, bind, Except.bind, pure, Except.pure]

theorem Written.lodges_rawKafka {createTimeMs : Int}
    (listed : recs[index]? =
      some { kind := brokerRawKafkaPayloadSegmentKind, payload := pending.payload })
    (described : owner.descriptor = descriptor)
    (shared : owner.sharedKafkaIngress = some (.kafka none none ∅ false))
    (plain : pending.ingress = .kafka (some createTimeMs) none ∅ false)
    (small : pending.payload.length ≤ maxPayloadBytes) (time : Int) (seg : Nat) :
    Lodges runtime project time pending (pending.stored runtime time seg location) owner := by
  refine ⟨written.scope located listed described small (Nat.le_refl _) _ _ _ _ _, ?_⟩
  obtain ⟨_, _, read⟩ := written.extent located listed
  have compact : ¬ brokerRawKafkaPayloadSegmentKind = brokerPayloadSegmentKind := by decide
  have raw : ¬ brokerRawKafkaPayloadSegmentKind = brokerRawAmqpPayloadSegmentKind := by decide
  simp [loadRecord, PendingPayloadRecord.stored, storedPayload, described, read,
    materializeStoredPayload, compact, raw, shared, written.projectId, validateLoadedPayload,
      written.family, kafkaTime,
    plain, segmentRecord, orElse, require, bind, Except.bind, pure, Except.pure]

omit written located

theorem isPrefixOf?_append (magic encoded : Bytes) :
    magic.isPrefixOf? (magic ++ encoded) = some encoded := by
  induction magic with
  | nil => rfl
  | cons byte rest ih => simp [List.isPrefixOf?, ih]

theorem Written.lodges_compact {encoded : Bytes}
    (written : Written runtime project recs descriptor locs)
    (located : locs[index]? = some location) (listed : recs[index]? = some
      { kind := brokerPayloadSegmentKind, payload := brokerPayloadRecordMagic ++ encoded })
    (decodes : runtime.decodeCompact encoded = .ok (segmentRecord runtime project time pending))
    (long : pending.payload.length ≤ encoded.length) (described : owner.descriptor = descriptor)
    (small : pending.payload.length ≤ maxPayloadBytes) (seg : Nat) :
    Lodges runtime project time pending (pending.stored runtime time seg location) owner := by
  refine ⟨written.scope located listed described small (by simp only [List.length_append]; omega)
    _ _ _ _ _, ?_⟩
  obtain ⟨_, _, read⟩ := written.extent located listed
  simp [loadRecord, PendingPayloadRecord.stored, storedPayload, described, read,
    materializeStoredPayload, decodePayloadSegmentRecord, isPrefixOf?_append, decodes, segmentRecord,
    written.projectId, validateLoadedPayload, written.family, orElse, require, bind, Except.bind,
      pure, Except.pure]

end Housing

section Allocate

variable {orderly : Prop} {s s' : BrokerStateMachine} {msg : MessageId}
  {floating : MessageId → Prop} {stale : ProjectId × Uuid → Prop} {seg : Nat} {missing : Nat → Nat}

def Lasts (s s' : BrokerStateMachine) : Prop :=
  ∀ message row, s.ledger.entry message = some row → s'.ledger.entry message = some row

theorem Ledger.billed_eq_entry (ledger : Ledger) (msg : MessageId) :
    ledger.billed msg = (ledger.entry msg).map fun (project, payload, seg) =>
      (project, payload.retainedBytes + seg.sharedIngressBytes) := by
  simp only [billed, entry, map_bind]
  congr 1
  funext payload
  simp [Function.comp_def, map_bind]

theorem Lasts.billed {charge : ProjectId × Nat} (lasts : Lasts s s')
    (known : s.ledger.billed msg = some charge) :
    s'.ledger.billed msg = some charge := by
  rw [Ledger.billed_eq_entry, map_eq_some_iff] at known ⊢
  obtain ⟨row, entry, same⟩ := known
  exact ⟨row, lasts _ _ entry, same⟩

variable (ledger : Ledger) (payload : StoredPayloadRecord)

def Ledger.enrol : Ledger :=
  { ledger with payloads := ledger.payloads.insert payload.id payload, lastMessage := payload.id }

theorem Ledger.entry_enrol {seg : BrokerPayloadSegment}
    (has : ledger.segments[payload.segment]? = some seg)
    (scope : seg.descriptor.projectId = some project) :
    (ledger.enrol payload).entry payload.id = some (project, payload, seg) :=
  Ledger.entry_eq_some.mpr ⟨ExtTreeMap.getElem?_insert_self, has, scope⟩

theorem Ledger.entry_enrol_of_ne {ledger : Ledger} {payload : StoredPayloadRecord}
    (apart : msg ≠ payload.id) :
    (ledger.enrol payload).entry msg = ledger.entry msg := by
  unfold Ledger.entry Ledger.enrol
  rw [getElem?_insert, if_neg (Ne.symm apart)]

theorem Ledger.entry_enrol_of_some {row : ProjectId × StoredPayloadRecord × BrokerPayloadSegment}
    {ledger : Ledger} (payload : StoredPayloadRecord) (fresh : ledger.payloads[payload.id]? = none)
    (known : ledger.entry msg = some row) :
    (ledger.enrol payload).entry msg = some row := by
  rw [Ledger.entry_enrol_of_ne]
  · exact known
  · rintro rfl
    rw [Ledger.entry, fresh] at known
    cases known

theorem Lasts.advances (lasts : Lasts s s') (frame : Reledgered s s')
    (new : ∀ {msg owner row}, s'.ledger.entry msg = some (owner, row) →
      owner = project ∨ s.ledger.entry msg = some (owner, row)) : Advances project nobody s s' :=
  frame.advances fun apart => ⟨fun entry => (new entry).resolve_left apart, lasts _ _⟩

theorem allocatePayloadSegment_meets {liveRecords : Nat} (project : ProjectId)
    (invariant : Invariant runtime orderly s floating (fun _ => 0) stale)
    (family : descriptor.family = .brokerPayload) (live : liveRecords ≠ 0)
    (bounded : liveRecords ≤ u32Max) (amqp kafka : Option IngressMetadata) :
    Meets (s.allocatePayloadSegmentWithSharedIngress descriptor liveRecords amqp kafka)
      (fun allocated => Reledgered s allocated.1 ∧ Lasts s allocated.1 ∧
        Advances project nobody s allocated.1 ∧ allocated.1.nextMessageId = s.nextMessageId ∧
        Invariant runtime orderly allocated.1 floating (owed allocated.2 liveRecords) stale ∧
        ∃ segment, allocated.1.payloadSegments[allocated.2]? = some segment ∧
          segment.descriptor = descriptor ∧ segment.sharedAmqpIngress = amqp ∧
          segment.sharedKafkaIngress = kafka)
      Overflow := by
  unfold allocatePayloadSegmentWithSharedIngress
  have valid : (liveRecords != 0 && descriptor.family == .brokerPayload) = true := by
    rw [family, Bool.and_eq_true]
    exact ⟨bne_iff_ne.mpr live, rfl⟩
  apply Meets.require valid
  refine meets_checkedSum (by simp [overflowErrors]) fun _ => ?_
  have fresh : s.payloadSegments.contains (s.nextPayloadSegmentId + 1) = false := by
    cases present : s.payloadSegments[s.nextPayloadSegmentId + 1]? with
    | none => rw [ExtTreeMap.contains_eq_isSome_getElem?, present, isSome_none]
    | some segment =>
      have bound : s.nextPayloadSegmentId + 1 ≤ s.nextPayloadSegmentId :=
        (invariant.accounts.labelled present).2.1
      omega
  apply Meets.require (by rw [fresh]; rfl)
  generalize made : ({
      id := s.nextPayloadSegmentId + 1
      descriptor
      liveRecords
      sharedAmqpIngress := amqp
      sharedKafkaIngress := kafka
      sharedIngressBytes := ((amqp <|> kafka).map ingressAccountedBytes).getD 0 } :
        BrokerPayloadSegment) = segment
  have opened := invariant.accounts.openSegment segment (made ▸ rfl) (made ▸ live) (made ▸ bounded)
  have unchanged : ∀ message, ({ s.ledger with
      segments := s.payloadSegments.insert (s.nextPayloadSegmentId + 1) segment
      lastSegment := s.nextPayloadSegmentId + 1 } : Ledger).entry message = s.ledger.entry message := by
    intro message
    unfold Ledger.entry
    cases found : s.ledger.payloads[message]? with
    | none => rfl
    | some payload =>
      obtain ⟨_, _, present, _⟩ := invariant.accounts.housed found
      have bound : payload.segment ≤ s.nextPayloadSegmentId := (invariant.accounts.labelled present).2.1
      simp only [bind_some, getElem?_insert,
        if_neg (show ¬ s.nextPayloadSegmentId + 1 = payload.segment by omega)]
      rfl
  subst made
  have lasts : ∀ message row, s.ledger.entry message = some row → _ = some row :=
    fun message _ entry => (unchanged message).trans entry
  refine ⟨rfl, lasts, Lasts.advances lasts rfl (fun entry => .inr ((unchanged _).symm.trans entry)),
    rfl, { invariant with accounts := opened }, _, ExtTreeMap.getElem?_insert_self, rfl, rfl, rfl⟩

def Reads (runtime : Runtime) (s : BrokerStateMachine) (message : MessageId)
    (record : PayloadSegmentRecord) : Prop :=
  ∃ payload segment, s.ledger.entry message = some (record.project, payload, segment) ∧
    loadRecord runtime segment payload = .ok record

theorem Reads.lasts {record : PayloadSegmentRecord} (reads : Reads runtime s msg record)
    (lasts : Lasts s s') : Reads runtime s' msg record := by
  obtain ⟨payload, seg, entry, loads⟩ := reads
  exact ⟨payload, seg, lasts _ _ entry, loads⟩

structure Allocated (runtime : Runtime) (orderly : Prop) (s s' : BrokerStateMachine)
    (project : ProjectId)
    (timestampMs : Int) (pending : PendingPayloadRecord) (floating : MessageId → Prop)
    (missing : Nat → Nat)
    (stale : ProjectId × Uuid → Prop) : Prop where
  frame : Reledgered s s'
  advances : Advances project nobody s s'
  cursor : s'.nextMessageId = pending.id
  segments : s'.payloadSegments = s.payloadSegments
  invariant : Invariant runtime orderly s' (fun message => floating message ∨
    message = pending.id) missing stale
  charged : ∃ bytes, s'.ledger.billed pending.id = some (project, bytes)
  reads : Reads runtime s' pending.id (segmentRecord runtime project timestampMs pending)
  lasts : Lasts s s'

theorem allocateStoredMessageInSegment_meets (count : Nat)
    (inv : Invariant runtime orderly s floating (owed seg (count + 1)) stale)
    (has : s.payloadSegments[seg]? = some owner) {pending : PendingPayloadRecord}
    (numbered : s.nextMessageId + 1 = pending.id)
    (lodges : Lodges runtime project time pending (pending.stored runtime time seg location) owner) :
    Meets
      (s.allocateStoredMessageInSegment pending.id time pending.payload.length
        (runtime.hash pending.payload) (kafkaTime pending.ingress time) seg location)
      (fun allocated => allocated.2 = pending.id ∧
        Allocated runtime orderly s allocated.1 project time pending floating (owed seg count) stale)
      Overflow := by
  obtain ⟨id, ingress, bytes⟩ := pending
  have next : s.nextMessageId + 1 = id := numbered
  subst next
  have scope := lodges.scope
  simp only [payloadInScope, PendingPayloadRecord.stored, storedPayload,
    Bool.and_eq_true] at scope
  obtain ⟨⟨⟨⟨_, small⟩, fits⟩, _⟩, inside⟩ := scope
  unfold allocateStoredMessageInSegment
  apply Meets.require small
  refine meets_checkedSum (by simp [overflowErrors]) fun _ => ?_
  apply Meets.require (beq_self_eq_true _)
  apply Meets.orElse
  · intro absent
    cases has.symm.trans absent
  intro found owned
  have same : found = owner := some.inj (owned.symm.trans has)
  subst same
  apply Meets.require (Bool.and_eq_true _ _ ▸ ⟨fits, inside⟩)
  have fresh : s.payloads[s.nextMessageId + 1]? = none := by
    cases stored : s.payloads[s.nextMessageId + 1]? with
    | none => rfl
    | some payload =>
      have bound : s.nextMessageId + 1 ≤ s.nextMessageId := (inv.accounts.identified stored).2
      omega
  apply Meets.require (by rw [ExtTreeMap.contains_eq_isSome_getElem?, fresh]; rfl)
  have accounts := inv.accounts.allocate rfl rfl has lodges.housed
  generalize same : PendingPayloadRecord.stored runtime time seg
    { id := s.nextMessageId + 1, ingress, payload := bytes } location = stored at lodges accounts
  have numberedStored : stored.id = s.nextMessageId + 1 := same ▸ rfl
  have enrolled := Ledger.entry_enrol s.ledger stored (same ▸ has) lodges.housed.projectId
  have lasts : ∀ msg row, s.ledger.entry msg = some row →
      (s.ledger.enrol stored).entry msg = some row :=
    fun _ _ known => Ledger.entry_enrol_of_some stored (numberedStored ▸ fresh) known
  have new : ∀ {msg owner row}, (s.ledger.enrol stored).entry msg = some (owner, row) →
      owner = project ∨ s.ledger.entry msg = some (owner, row) := by
    intro msg owner row known
    by_cases here : msg = stored.id
    · rw [here, enrolled, some.injEq, Prod.mk.injEq] at known
      exact .inl known.1.symm
    · rw [Ledger.entry_enrol_of_ne here] at known
      exact .inr known
  subst same
  exact ⟨rfl, rfl, Lasts.advances lasts rfl new, rfl, rfl, { inv with accounts := accounts },
    ⟨_, (Ledger.billed_eq_entry _ _).trans (congrArg (Option.map _) enrolled)⟩,
      ⟨_, _, enrolled, lodges.loads⟩, lasts⟩

def pendingOf (next : Nat) (entries : List (IngressMetadata × Bytes)) : List PendingPayloadRecord :=
  entries.mapIdx fun index entry => { id := next + 1 + index, ingress := entry.1, payload := entry.2 }

theorem pendingOf_cons (next : Nat) (entry : IngressMetadata × Bytes)
    (rest : List (IngressMetadata × Bytes)) : pendingOf next (entry :: rest) =
      { id := next + 1, ingress := entry.1, payload := entry.2 } :: pendingOf (next + 1) rest := by
  simp only [pendingOf, List.mapIdx_cons, Nat.add_zero]
  congr 2
  funext index entry
  rw [PendingPayloadRecord.mk.injEq]
  exact ⟨show (next + 1 + (index + 1) : Nat) = next + 1 + 1 + index by omega, rfl, rfl⟩

@[simp] theorem length_pendingOf (next : Nat) (entries : List (IngressMetadata × Bytes)) :
    (pendingOf next entries).length = entries.length :=
  List.length_mapIdx

theorem getElem?_pendingOf (next : Nat) (entries : List (IngressMetadata × Bytes)) (index : Nat) :
    (pendingOf next entries)[index]? = entries[index]?.map fun entry =>
      { id := next + 1 + index, ingress := entry.1, payload := entry.2 } :=
  List.getElem?_mapIdx

theorem mem_pendingOf {next : Nat} {entries : List (IngressMetadata × Bytes)}
    {record : PendingPayloadRecord} (mem : record ∈ pendingOf next entries) :
    (record.ingress, record.payload) ∈ entries := by
  obtain ⟨index, found⟩ := List.mem_iff_getElem?.mp mem
  rw [getElem?_pendingOf, map_eq_some_iff] at found
  obtain ⟨entry, listed, rfl⟩ := found
  exact List.mem_of_getElem? listed

structure BatchAllocated (runtime : Runtime) (orderly : Prop) (s s' : BrokerStateMachine)
    (project : ProjectId)
    (timestampMs : Int) (pending : List PendingPayloadRecord) (floating : MessageId → Prop)
    (missing : Nat → Nat)
    (stale : ProjectId × Uuid → Prop) : Prop where
  frame : Reledgered s s'
  advances : Advances project nobody s s'
  cursor : s'.nextMessageId = s.nextMessageId + pending.length
  invariant : Invariant runtime orderly s'
    (fun message => floating message ∨ message ∈ pending.map (·.id)) missing stale
  charged : ∀ record ∈ pending, ∃ bytes, s'.ledger.billed record.id = some (project, bytes)
  reads : ∀ record ∈ pending, Reads runtime s' record.id
    (segmentRecord runtime project timestampMs record)
  lasts : Lasts s s'

theorem BatchAllocated.nil (inv : Invariant runtime orderly s floating missing stale) :
    BatchAllocated runtime orderly s s project time [] floating missing stale :=
  ⟨rfl, .refl project s, rfl, inv.weaken (fun _ => .inl) fun _ outlived => outlived, nofun, nofun,
    fun _ _ known => known⟩

theorem BatchAllocated.cons {middle : BrokerStateMachine} {first : PendingPayloadRecord}
    {missing' : Nat → Nat} {final : BrokerStateMachine} {pending : List PendingPayloadRecord}
    (numbered : s.nextMessageId + 1 = first.id)
    (allocated : Allocated runtime orderly s middle project time first floating missing' stale)
    (rest : BatchAllocated runtime orderly middle final project time pending
      (fun msg => floating msg ∨ msg = first.id) missing stale) :
    BatchAllocated runtime orderly s final project time (first :: pending) floating missing stale := by
  refine ⟨allocated.frame.trans rest.frame, allocated.advances.trans rest.advances, ?_, ?_, ?_, ?_,
    fun _ _ known => rest.lasts _ _ (allocated.lasts _ _ known)⟩
  · rw [rest.cursor, allocated.cursor, ← numbered, List.length_cons]
    omega
  · refine rest.invariant.weaken ?_ fun _ outlived => outlived
    rintro msg ((floats | same) | mem)
    · exact .inl floats
    · exact .inr (same ▸ List.mem_cons_self ..)
    · exact .inr (List.mem_cons_of_mem _ mem)
  · intro record mem
    rcases List.mem_cons.mp mem with same | later
    · obtain ⟨bytes, known⟩ := allocated.charged
      exact ⟨bytes, same ▸ Lasts.billed rest.lasts known⟩
    · exact rest.charged record later
  · intro record mem
    rcases List.mem_cons.mp mem with same | later
    · exact same ▸ allocated.reads.lasts rest.lasts
    · exact rest.reads record later

theorem allocateMessages_meets (time : Int)
    (entries : List (PendingPayloadRecord × SegmentRecordLocation))
    (inv : Invariant runtime orderly s floating (owed seg entries.length) stale)
    (has : s.payloadSegments[seg]? = some owner)
    (numbered : ∀ {index : Nat} {entry}, entries[index]? = some entry →
      s.nextMessageId + 1 + index = entry.1.id)
    (lodges : ∀ entry ∈ entries,
      Lodges runtime project time entry.1 (entry.1.stored runtime time seg entry.2) owner) :
    Meets (allocateMessages runtime time seg entries s)
      (fun allocated => allocated.2 = (entries.map (·.1)).map (·.id) ∧
        BatchAllocated runtime orderly s allocated.1 project time (entries.map (·.1)) floating
          (fun _ => 0) stale)
      Overflow := by
  induction entries generalizing s floating with
  | nil =>
    rw [List.length_nil, owed_zero] at inv
    exact ⟨rfl, .nil inv⟩
  | cons entry rest ih =>
    obtain ⟨pending, location⟩ := entry
    have first : s.nextMessageId + 1 = pending.id := numbered (List.getElem?_cons_zero ..)
    apply Meets.bind (allocateStoredMessageInSegment_meets rest.length inv has first
      (lodges (pending, location) (by simp)))
    rintro ⟨middle, msg⟩ ⟨(rfl : msg = pending.id), allocated⟩
    have later : ∀ {index : Nat} {entry}, rest[index]? = some entry →
        middle.nextMessageId + 1 + index = entry.1.id := by
      intro index entry found
      have next := numbered (show ((pending, location) :: rest)[index + 1]? = some entry from found)
      have cursor : middle.nextMessageId = pending.id := allocated.cursor
      omega
    apply Meets.bind (ih allocated.invariant (allocated.segments ▸ has) later
      fun entry mem => lodges entry (List.mem_cons_of_mem _ mem))
    rintro ⟨final, msgs⟩ ⟨(rfl : msgs = _), batch⟩
    exact ⟨rfl, BatchAllocated.cons first allocated batch⟩

end Allocate

end IronGraph.Broker
