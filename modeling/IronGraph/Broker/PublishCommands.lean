import IronGraph.Broker.Publication

/-!
The publish commands: each of them keeps the invariant, stores what was published under the next message
identifiers and appends references to it in order.
-/

namespace IronGraph.Broker

open Std Outcome OrderedMap BrokerStateMachine List ExtTreeSet

theorem pendingOf_ne_nil {entries : List (IngressMetadata × Bytes)} (next : Nat)
    (nonempty : entries ≠ []) : pendingOf next entries ≠ [] := by
  rw [← length_pos_iff, length_pendingOf, length_pos_iff]
  exact nonempty

variable {s s' : BrokerStateMachine} {runtime : Runtime} {project : ProjectId} {timestampMs : Int}
  {pending : List PendingPayloadRecord}

theorem Reledgered.logEnd (frame : Reledgered s s') : logEnd s' = logEnd s := by
  funext id
  rw [frame]
  rfl

section Kafka

variable {orderly : Prop} {allocated : BrokerStateMachine} {recs : List KafkaBatchRecord}

def kafkaDrafts (target : StreamId) (pending : List PendingPayloadRecord)
    (id : StreamId) : List Draft :=
  if id = target then pending.map fun record => Draft.initial record.id else []

def KafkaPublished (runtime : Runtime) (orderly : Prop) (s : BrokerStateMachine) (project : ProjectId)
    (target : StreamId) (timestampMs : Int) (records : List KafkaBatchRecord)
    (published : BrokerStateMachine × BrokerReply) : Prop :=
  let pending := pendingOf s.nextMessageId (records.map KafkaBatchRecord.entry)
  published.2 = .kafkaBatchPublished (logEnd s target) records.length ∧
    Settled runtime orderly published.1 ∧
      Published runtime project timestampMs s published.1 pending (kafkaDrafts target pending)

variable {id : StreamId}

theorem BatchAllocated.charged_id
    (batch : BatchAllocated runtime orderly s allocated project timestampMs pending
      (fun _ => False) (fun _ => 0) (fun _ => False)) :
    ∀ msg ∈ pending.map (·.id), ∃ bytes, allocated.ledger.billed msg = some (project, bytes) := by
  intro msg mem
  obtain ⟨record, inside, rfl⟩ := mem_map.mp mem
  exact batch.charged record inside

theorem BatchAllocated.appendKafka {opened : BrokerStateMachine} {stream : StreamState}
    (reledgered : Reledgered s opened)
    (before : Published runtime project timestampMs s opened [] (fun _ => []))
    (batch : BatchAllocated runtime orderly opened allocated project timestampMs pending (fun _ =>
      False) (fun _ => 0)
      (fun _ => False)) (target : InProject s project id) (found : s.streams[id]? = some stream)
        (reply : BrokerReply)
    (error : Error) :
    Meets (do
        let (s, appendedFirst) ← allocated.appendInitialReferencesBatch id (pending.map (·.id))
        require (appendedFirst == stream.nextOffset) error
        return (s, reply))
      (fun published => published.2 = reply ∧ Settled runtime orderly published.1 ∧
        Published runtime project timestampMs s published.1 pending (kafkaDrafts id pending))
          Overflow := by
  have frame := reledgered.trans batch.frame
  apply Meets.bind (appendInitialReferencesBatch_meets batch.invariant (target.reledger frame)
    batch.charged_id)
  rintro ⟨appended, first⟩ ⟨grown, ⟨standing, here, (offset : first = _)⟩, after⟩
  have same : standing = stream := by
    rw [frame] at here
    exact Option.some.inj (here.symm.trans found)
  apply Meets.require (by rw [offset, same]; exact beq_self_eq_true _)
  refine ⟨rfl, after.settledBatch,
    ((before.trans batch.published).trans (grown.published runtime timestampMs)).congr (by simp) ?_⟩
  intro other
  simp [kafkaDrafts, Function.comp_def]

variable (lawful : Lawful runtime) (settled : Settled runtime orderly s)

include lawful settled

variable (target : InProject s project id) {stream : StreamState}
  (found : s.streams[id]? = some stream) (timestampMs : Int)
include target found

theorem publishRawKafkaBatch_meets (bounded : recs.length ≤ 1000000)
    (small : ∀ record ∈ recs, record.payload.length ≤ maxPayloadBytes)
    (sharing : kafkaBatchCanShareIngress recs = true) :
    Meets (publishRawKafkaBatch runtime s project id stream.nextOffset recs.length timestampMs recs)
      (KafkaPublished runtime orderly s project id timestampMs recs) Overflow := by
  obtain ⟨nonempty, plain⟩ := kafkaBatchCanShareIngress_iff.mp sharing
  unfold publishRawKafkaBatch
  apply Meets.bind (writeRawKafkaPayloadSegmentBatch_meets lawful sharing)
  rintro ⟨desc, locs, checksums⟩ lodged
  apply Meets.bind (allocatePayloadSegment_meets project settled lodged.family
    (by rw [ne_eq, length_eq_zero_iff]; exact nonempty) (Nat.le_trans bounded (by decide)) _ _)
  rintro ⟨opened, seg⟩ ⟨reledgered, lasts, advances, cursor, inv, owner, has, described, _, shared⟩
  have located : locs.length = recs.length := lodged.located
  have summed : checksums.length = recs.length := lodged.summed.length_eq.symm
  have length : (recs.zip (locs.zip checksums)).length = recs.length := by
    simp only [length_zip]
    omega
  have listed : (recs.zip (locs.zip checksums)).map (·.1.entry) = recs.map KafkaBatchRecord.entry := by
    rw [show (fun entry : KafkaBatchRecord × SegmentRecordLocation × Digest => entry.1.entry) =
      KafkaBatchRecord.entry ∘ Prod.fst from rfl, ← map_map,
      map_fst_zip (by simp only [length_zip]; omega)]
  have stored := lodged.zip_lodges small plain described shared timestampMs seg
  rw [← length] at inv
  apply Meets.bind (allocateRawKafkaMessages_meets timestampMs _ inv has
    (fun entry mem => plain _ (of_mem_zip mem).1) (fun entry mem => (stored entry mem).1)
    fun entry mem => (stored entry mem).2)
  rintro ⟨allocated, msgs⟩ ⟨(rfl : msgs = _), batch⟩
  rw [listed, show opened.nextMessageId = s.nextMessageId from cursor] at batch ⊢
  refine Meets.imp (batch.appendKafka reledgered (.opened reledgered advances cursor lasts) target found
    _ _) (fun published appended => ⟨appended.1.trans ?_, appended.2⟩)
  rw [logEnd, found, Option.elim_some]

theorem publishKafkaRecords_meets (nonempty : recs ≠ []) (bounded : recs.length ≤ 1000000)
    (small : ∀ record ∈ recs, record.payload.length ≤ maxPayloadBytes) :
    Meets (publishKafkaRecords runtime s project id stream.nextOffset recs.length timestampMs recs)
      (KafkaPublished runtime orderly s project id timestampMs recs) Overflow := by
  unfold publishKafkaRecords
  apply Meets.bind (pendingRecords_meets _)
  rintro pending (rfl : pending = pendingOf s.nextMessageId (recs.map KafkaBatchRecord.entry))
  apply Meets.bind (writePayloadSegmentBatch_meets lawful timestampMs
    (pendingOf_ne_nil _ (by simpa using nonempty)) none)
  rintro ⟨desc, locs⟩ lodged
  apply Meets.bind (allocatePayloadSegment_meets project settled lodged.family
    (by rw [ne_eq, length_eq_zero_iff]; exact nonempty) (Nat.le_trans bounded (by decide)) _ _)
  rintro ⟨opened, seg⟩ ⟨reledgered, lasts, advances, cursor, inv, owner, has, described, shared, _⟩
  have located : locs.length = _ := lodged.length
  have length : ((pendingOf s.nextMessageId (recs.map KafkaBatchRecord.entry)).zip locs).length =
      recs.length := by
    rw [length_zip, located, Nat.min_self, length_pendingOf, length_map]
  have small' : ∀ record ∈ pendingOf s.nextMessageId (recs.map KafkaBatchRecord.entry),
      record.payload.length ≤ maxPayloadBytes := by
    intro record mem
    obtain ⟨source, inside, same⟩ := mem_map.mp (mem_pendingOf mem)
    rw [← (Prod.mk.inj same).2]
    exact small source inside
  rw [← length] at inv
  apply Meets.bind (allocateMessages_meets timestampMs _ inv has
    (fun listed => (show opened.nextMessageId = s.nextMessageId from cursor) ▸ zip_pendingOf listed)
    (lodged.zip_lodges small' described shared seg))
  rintro ⟨allocated, msgs⟩ ⟨(rfl : msgs = _), batch⟩
  rw [map_fst_zip (Nat.le_of_eq located.symm)] at batch ⊢
  refine Meets.imp (batch.appendKafka reledgered (.opened reledgered advances cursor lasts) target found
    _ _) (fun published appended => ⟨appended.1.trans ?_, appended.2⟩)
  rw [logEnd, found, Option.elim_some]

omit target found

theorem publishKafkaBatch_meets {topic : String} {part timestampMs : Int}
    (accepted : s.validateCommand (.publishKafkaBatch project topic part timestampMs recs) = .ok ()) :
    Meets (publishKafkaBatch runtime s project topic part timestampMs recs)
      (fun published => ∃ target, s.partitionStream project topic part = .ok target ∧
        KafkaPublished runtime orderly s project target timestampMs recs published) Overflow := by
  obtain ⟨_, valid, accepted⟩ := bind_eq_ok.mp accepted
  obtain ⟨id, located, appends⟩ := bind_eq_ok.mp accepted
  obtain ⟨nonempty, bounded, small⟩ := validateKafkaBatch_eq_ok valid
  obtain ⟨_, slot⟩ := partitionStream_inProject located
  obtain ⟨stream, here⟩ := settled.stands slot
  have target : InProject s project id := ⟨_, rfl, slot⟩
  unfold publishKafkaBatch
  apply Meets.passed valid
  apply Meets.passed located
  apply Meets.require (decide_eq_true (Nat.le_trans bounded (by decide)))
  apply Meets.orElse
  · intro absent
    cases here.stream.symm.trans absent
  intro state found
  apply Meets.passed appends
  refine Meets.mono ?_ (fun published done => ⟨id, located, done⟩) fun _ failed => failed
  split
  next sharing =>
    exact publishRawKafkaBatch_meets lawful settled target found timestampMs bounded small sharing
  · exact publishKafkaRecords_meets lawful settled target found timestampMs nonempty bounded small

end Kafka

section Amqp

variable {orderly : Prop} {mandatory : Bool} {properties headers : Fields}

def AmqpBatchRecord.entry (record : AmqpBatchRecord) : IngressMetadata × Bytes :=
  (record.ingress, record.payload)

def routedDraft (exchange routingKey : String) (message : MessageId) : Draft :=
  { message, deathCount := 0, currentExchange := some exchange, currentRoutingKey := some routingKey }

def AmqpPublished (runtime : Runtime) (orderly : Prop) (s : BrokerStateMachine) (project : ProjectId)
    (targets : ExtTreeSet StreamId) (timestampMs : Int) (record : AmqpBatchRecord)
    (published : BrokerStateMachine × BrokerReply) : Prop :=
  Settled runtime orderly published.1 ∧
    if targets.isEmpty then published = (s, .published 0 [])
    else
      published.2 = .published (s.nextMessageId + 1) (targets.toList.map fun id => (id, logEnd s id)) ∧
      Published runtime project timestampMs s published.1 (pendingOf s.nextMessageId [record.entry])
        (fun id => if id ∈ targets then
          [routedDraft record.exchange record.routingKey (s.nextMessageId + 1)] else [])

theorem nodup_toList (targets : ExtTreeSet StreamId) : targets.toList.Nodup := by
  refine distinct_toList.imp ?_
  intro first second differs same
  exact differs (LawfulEqCmp.compare_eq_iff_eq.mpr same)

variable (lawful : Lawful runtime) (settled : Settled runtime orderly s)

include lawful settled

theorem publishAmqp_meets {exchange routingKey : String} {payload : Bytes} (accepted : s.validateCommand
      (.publishAmqp project exchange routingKey mandatory timestampMs properties headers payload) =
        .ok ()) :
    Meets (publishAmqp runtime s project exchange routingKey timestampMs properties headers payload)
      (fun published => ∃ targets, s.amqpTargets project exchange routingKey = .ok targets ∧
        AmqpPublished runtime orderly s project targets timestampMs
          { exchange, routingKey, mandatory, properties, headers, payload } published) Overflow := by
  obtain ⟨_, valid, accepted⟩ := bind_eq_ok.mp accepted
  obtain ⟨targets, routed, appends⟩ := bind_eq_ok.mp accepted
  unfold publishAmqp
  apply Meets.passed routed
  refine Meets.mono ?_ (fun published done => ⟨targets, routed, done⟩) fun _ failed => failed
  split
  next unrouted => exact ⟨settled, by rw [if_pos unrouted]⟩
  next filled =>
    apply Meets.passed appends
    refine meets_checkedSum (by simp [overflowErrors]) fun _ => ?_
    apply Meets.bind (writeRawAmqpPayloadSegmentBatch_meets lawful timestampMs (cons_ne_nil _ _)
      (show (IngressMetadata.amqp exchange routingKey properties headers 0).isAmqp =
        true from rfl) (by simp))
    rintro ⟨desc, locs⟩ lodged
    have single : locs.length = 1 := lodged.length
    obtain ⟨loc, rfl⟩ := length_eq_one_iff.mp single
    apply Meets.bind (allocatePayloadSegment_meets project settled lodged.family Nat.one_ne_zero
      (by decide) _ _)
    rintro ⟨opened, seg⟩ ⟨reledgered, lasts, advances, cursor, inv, owner, has, described, shared, _⟩
    have numbered : opened.nextMessageId + 1 = s.nextMessageId + 1 := congrArg (· + 1) cursor
    have lodges := lodged.lodges (show [_][0]? = some _ from rfl) (show [loc][0]? = some loc from rfl)
      (validatePayload_eq_ok valid) described shared seg
    apply Meets.bind (allocateStoredMessageInSegment_meets 0 inv has numbered lodges)
    rintro ⟨allocated, msg⟩ ⟨(rfl : msg = s.nextMessageId + 1), one⟩
    have frame := reledgered.trans one.frame
    have targeted : ∀ id ∈ targets.toList, InProject allocated project id := fun id mem =>
      (routedStreams_inProject routed (mem_toList.mp mem)).reledger frame
    obtain ⟨bytes, billed⟩ := one.charged
    apply Meets.bind (appendToStreams_meets targets.toList (nodup_toList targets)
      one.invariant targeted billed _ _ _)
    rintro ⟨final, offsets⟩ ⟨(rfl : offsets = _), grown, after⟩
    rw [owed_zero] at after
    refine ⟨after.weaken ?_ fun _ outlived => outlived, ?_⟩
    · rintro other ⟨floats, covered⟩
      exact filled (by simpa [isEmpty_toList] using covered (floats.resolve_left id))
    · rw [if_neg filled]
      refine ⟨by simp only [frame.logEnd], ?_⟩
      refine ((((Published.opened reledgered advances cursor lasts).trans
        (one.published numbered)).trans (grown.published runtime timestampMs))).congr rfl ?_
      intro other
      simp [routedDraft]

theorem publishAmqpUniformBatch_meets {exchange routingKey : String} {payloads : List Bytes}
    (accepted : s.validateCommand (.publishAmqpUniformBatch project timestampMs exchange
      routingKey mandatory properties headers payloads) = .ok ()) :
    Meets (publishAmqpUniformBatch runtime s project timestampMs exchange routingKey properties
      headers payloads)
      (fun published => ∃ targets, s.amqpTargets project exchange routingKey = .ok targets ∧
        Settled runtime orderly published.1 ∧
        published.2 = .amqpUniformBatchPublished payloads.length (!targets.isEmpty) ∧
        if targets.isEmpty then published.1 = s
        else
          let pending := pendingOf s.nextMessageId
            (payloads.map fun payload => (.amqp exchange routingKey properties headers 0, payload))
          Published runtime project timestampMs s published.1 pending
            (fun id => if id ∈ targets then pending.map fun record =>
              Draft.initial record.id else [])) Overflow := by
  obtain ⟨_, valid, accepted⟩ := bind_eq_ok.mp accepted
  obtain ⟨targets, routed, appends⟩ := bind_eq_ok.mp accepted
  obtain ⟨nonempty, bounded, small⟩ := validateAmqpUniformBatch_eq_ok valid
  have countable : decide (payloads.length ≤ u32Max) = true :=
    decide_eq_true (Nat.le_trans bounded (by decide))
  unfold publishAmqpUniformBatch
  apply Meets.passed valid
  apply Meets.passed routed
  apply Meets.passed appends
  refine Meets.mono ?_ (fun published done => ⟨targets, routed, done⟩) fun _ failed => failed
  split
  next unrouted =>
    apply Meets.require countable
    exact ⟨settled, by rw [unrouted]; rfl, rfl⟩
  next filled =>
    apply Meets.bind (pendingRecords_meets _)
    rintro pending rfl
    generalize listed : payloads.map (fun payload =>
      ((IngressMetadata.amqp exchange routingKey properties headers 0, payload) : IngressMetadata ×
        Bytes)) = entries
    have count : entries.length = payloads.length := by rw [← listed, length_map]
    have entry : ∀ record ∈ pendingOf s.nextMessageId entries,
        record.ingress = .amqp exchange routingKey properties headers 0 ∧
          record.payload ∈ payloads := by
      intro record mem
      have inside := mem_pendingOf mem
      rw [← listed] at inside
      obtain ⟨payload, source, same⟩ := mem_map.mp inside
      rw [Prod.mk.injEq] at same
      exact ⟨same.1.symm, same.2 ▸ source⟩
    have stocked := pendingOf_ne_nil s.nextMessageId (show entries ≠
      [] by simpa [← listed] using nonempty)
    apply Meets.bind (writeRawAmqpPayloadSegmentBatch_meets lawful timestampMs stocked
      (show (IngressMetadata.amqp exchange routingKey properties headers 0).isAmqp = true from rfl)
      (fun record mem => (entry record mem).1))
    rintro ⟨desc, locs⟩ lodged
    have located : locs.length = _ := lodged.length
    apply Meets.require countable
    apply Meets.bind (allocatePayloadSegment_meets project settled lodged.family
      (by rw [ne_eq, length_eq_zero_iff]; exact nonempty) (Nat.le_trans bounded (by decide)) _ _)
    rintro ⟨opened, seg⟩ ⟨reledgered, lasts, advances, cursor, inv, owner, has, described, shared, _⟩
    have length : ((pendingOf s.nextMessageId entries).zip locs).length = payloads.length := by
      rw [length_zip, located, Nat.min_self, length_pendingOf, count]
    rw [← length] at inv
    apply Meets.bind (allocateMessages_meets timestampMs _ inv has
      (fun listed => (show opened.nextMessageId = s.nextMessageId from cursor) ▸ zip_pendingOf listed)
      (lodged.zip_lodges (fun record mem => small _ (entry record mem).2) described shared seg))
    rintro ⟨allocated, msgs⟩ ⟨(rfl : msgs = _), batch⟩
    rw [map_fst_zip (Nat.le_of_eq located.symm)] at batch ⊢
    have targeted : ∀ id ∈ targets.toList, InProject allocated project id := fun id mem =>
      (routedStreams_inProject routed (mem_toList.mp mem)).reledger (reledgered.trans batch.frame)
    apply Meets.bind (appendInitialToStreams_meets targets.toList (nodup_toList targets)
      batch.invariant targeted batch.charged_id)
    rintro final ⟨grown, after⟩
    refine ⟨after.weaken ?_ fun _ outlived => outlived, by simp [filled], ?_⟩
    · rintro other ⟨floats, covered⟩
      exact filled (by simpa [isEmpty_toList] using covered (floats.resolve_left id))
    · refine (((Published.opened reledgered advances cursor lasts).trans batch.published).trans
        (grown.published runtime timestampMs)).congr (by simp) ?_
      intro id
      simp [Function.comp_def]

end Amqp

section Route

variable {orderly : Prop} {recs : List AmqpBatchRecord}

structure Routed (s : BrokerStateMachine) (project : ProjectId) (records : List AmqpBatchRecord)
    (routed : RoutedRecord) : Prop where
  listed : routed.record ∈ records
  filled : routed.targets.toList ≠ []
  inProject : ∀ id ∈ routed.targets.toList, InProject s project id

theorem routeRecords_eq_ok {entries : List (AmqpBatchRecord × Nat)}
    {counts final : ExtTreeMap StreamId Nat}
    (counted : (entries.map (·.1)).foldlM (fun counts record => do
        let targets ← s.amqpTargets project record.exchange record.routingKey
        return countTargets counts targets.toList) counts = .ok final) :
    ∃ routed, s.routeRecords project entries counts = .ok (routed, final) ∧
    routed.length ≤ entries.length ∧
      ∀ record ∈ routed, Routed s project (entries.map (·.1)) record := by
  induction entries generalizing counts with
  | nil =>
    have same : counts = final := Except.ok.inj counted
    exact ⟨[], same ▸ rfl, Nat.le_refl _, nofun⟩
  | cons entry rest ih =>
    obtain ⟨record, index⟩ := entry
    rw [map_cons, foldlM_cons, bind_eq_ok] at counted
    obtain ⟨_, stepped, continued⟩ := counted
    obtain ⟨targets, found, same⟩ := bind_eq_ok.mp stepped
    obtain ⟨routed, ran, short, each⟩ := ih (Except.ok.inj same ▸ continued)
    have later : ∀ other ∈ routed, Routed s project (record :: rest.map (·.1)) other := fun other mem =>
      { each other mem with listed := mem_cons_of_mem _ (each other mem).listed }
    refine ⟨if targets.isEmpty then routed else { index, record, targets } :: routed, ?_, ?_, ?_⟩
    · simp only [routeRecords, found, ran, bind, Except.bind, pure, Except.pure]
    · split
      · exact Nat.le_succ_of_le short
      · exact Nat.succ_le_succ short
    · split
      · exact later
      next filled =>
        intro other mem
        rcases mem_cons.mp mem with rfl | inside
        · exact ⟨mem_cons_self .., by simpa [isEmpty_toList] using filled,
            fun id mem => routedStreams_inProject found (mem_toList.mp mem)⟩
        · exact later other inside

def routedDrafts (entries : List (RoutedRecord × PendingPayloadRecord)) (id : StreamId) : List Draft :=
  entries.flatMap fun (routed, pending) =>
    if id ∈ routed.targets then
      [routedDraft routed.record.exchange routed.record.routingKey pending.id] else []

def routedOffsets (ends : StreamId → Nat) : List RoutedRecord → List (List (StreamId × Nat)) →
    List (List (StreamId × Nat))
  | [], offsets => offsets
  | routed :: rest, offsets =>
    routedOffsets (fun id => if id ∈ routed.targets then ends id + 1 else ends id) rest
      (offsets.set routed.index (routed.targets.toList.map fun id => (id, ends id)))

theorem Appended.logEnd_add {drafts : StreamId → List Draft}
    (appended : Appended project s s' drafts) {id : StreamId}
    (stands : ∃ stream, s.streams[id]? = some stream) :
    logEnd s' id = logEnd s id + (drafts id).length := by
  obtain ⟨stream, found⟩ := stands
  obtain ⟨after, has, _, next, _⟩ := appended.logs found
  rw [logEnd, logEnd, has, found, Option.elim_some, Option.elim_some, next]

theorem publishRouted_meets {seg : Nat} {owner : BrokerPayloadSegment} (timestampMs : Int)
    (entries : List (RoutedRecord × PendingPayloadRecord × SegmentRecordLocation))
    (offsets : List (List (StreamId × Nat)))
    (inv : Invariant runtime orderly s (fun _ => False) (owed seg entries.length) fun _ => False)
    (has : s.payloadSegments[seg]? = some owner)
    (numbered : ∀ {index : Nat} {entry}, entries[index]? = some entry →
      s.nextMessageId + 1 + index = entry.2.1.id)
    (lodges : ∀ entry ∈ entries, Lodges runtime project timestampMs entry.2.1
      (entry.2.1.stored runtime timestampMs seg entry.2.2) owner)
    (routed : ∀ entry ∈ entries, Routed s project recs entry.1) :
    Meets (publishRouted runtime timestampMs seg entries offsets s)
      (fun published => Settled runtime orderly published.1 ∧
        published.2 = routedOffsets (logEnd s) (entries.map (·.1)) offsets ∧
        Published runtime project timestampMs s published.1 (entries.map (·.2.1))
          (routedDrafts (entries.map fun entry => (entry.1, entry.2.1)))) Overflow := by
  induction entries generalizing s offsets with
  | nil =>
    rw [length_nil, owed_zero] at inv
    exact ⟨inv, rfl, .opened rfl (.refl project s) rfl fun _ _ known => known⟩
  | cons entry rest ih =>
    obtain ⟨record, pending, loc⟩ := entry
    have first : s.nextMessageId + 1 = pending.id := numbered (getElem?_cons_zero ..)
    have here := routed (record, pending, loc) (by simp)
    apply Meets.bind (allocateStoredMessageInSegment_meets rest.length inv has first
      (lodges (record, pending, loc) (by simp)))
    rintro ⟨middle, msg⟩ ⟨(rfl : msg = pending.id), allocated⟩
    obtain ⟨bytes, billed⟩ := allocated.charged
    apply Meets.bind (appendToStreams_meets record.targets.toList (nodup_toList _) allocated.invariant
      (fun id mem => (here.inProject id mem).reledger allocated.frame) billed _ _ _)
    rintro ⟨appended, recordOffsets⟩ ⟨(rfl : recordOffsets = _), grown, after⟩
    have streams : middle.streams = s.streams := by rw [show middle = _ from allocated.frame]
    refine Meets.imp (ih _ (after.weaken ?_ fun _ outlived => outlived) ?_ ?_ ?_ ?_) ?_
    · rintro other ⟨floats, covered⟩
      exact here.filled (covered (floats.resolve_left id))
    · have same : appended.payloadSegments = s.payloadSegments :=
        (congrArg Ledger.segments grown.frame.ledger).trans allocated.segments
      rw [same]
      exact has
    · intro index entry found
      have next := numbered (show (_ :: rest)[index + 1]? = some entry from found)
      have cursor : middle.nextMessageId = pending.id := allocated.cursor
      have same : appended.nextMessageId = middle.nextMessageId :=
        congrArg Ledger.lastMessage grown.frame.ledger
      omega
    · exact fun entry mem => lodges entry (mem_cons_of_mem _ mem)
    · intro entry mem
      have old := routed entry (mem_cons_of_mem _ mem)
      exact { old with inProject := fun id inside =>
        ((old.inProject id inside).reledger allocated.frame).restream grown.frame }
    · rintro ⟨final, offsets'⟩ ⟨settled, (rfl : offsets' = _), published⟩
      have same := congrFun allocated.frame.logEnd
      have ends : logEnd appended = fun id => if id ∈ record.targets then logEnd s id + 1
          else logEnd s id := by
        funext id
        by_cases reached : id ∈ record.targets
        · obtain ⟨slot, _, located⟩ := here.inProject id (mem_toList.mpr reached)
          have stands : ∃ stream, middle.streams[id]? = some stream :=
            streams ▸ inv.owned.declared located
          rw [if_pos reached, ← same id, grown.logEnd_add stands, if_pos (mem_toList.mpr reached)]
          rfl
        · rw [if_neg reached, ← same id]
          exact grown.logEnd_quiet (if_neg fun listed => reached (mem_toList.mp listed))
      refine ⟨settled, ?_, ?_⟩
      · simp only [ends, same, map_cons, routedOffsets]
      · refine (((allocated.published first).trans (grown.published runtime timestampMs)).trans
          published).congr (by simp) ?_
        intro id
        simp [routedDrafts, routedDraft]

theorem writeRoutedBatch_meets {shared : Option IngressMetadata} (lawful : Lawful runtime)
    (timestampMs : Int) (nonempty : pending ≠ [])
    (uniform : ∀ ingress ∈ shared, ingress.isAmqp = true ∧
    ∀ record ∈ pending, record.ingress = ingress) :
    Meets (writeRoutedBatch runtime project timestampMs shared pending)
      (fun stored => Lodged runtime project timestampMs shared pending stored.1 stored.2) Overflow := by
  cases shared with
  | none => exact writePayloadSegmentBatch_meets lawful timestampMs nonempty none
  | some ingress =>
    exact writeRawAmqpPayloadSegmentBatch_meets lawful timestampMs nonempty (uniform ingress rfl).1
      (uniform ingress rfl).2

theorem sharedIngress_eq_some {ingress : List IngressMetadata} {shared : IngressMetadata}
    (found : sharedIngress ingress = some shared) : ∀ other ∈ ingress, other = shared := by
  obtain ⟨first, alike⟩ := Option.filter_eq_some_iff.mp found
  cases ingress with
  | nil => exact nofun
  | cons head tail =>
    have same : head = shared := Option.some.inj first
    intro other mem
    rcases mem_cons.mp mem with front | later
    · exact front.trans same
    · exact eq_of_beq (all_eq_true.mp alike other later)

theorem publishAmqpBatch_meets (lawful : Lawful runtime) (settled : Settled runtime orderly s)
    (accepted : s.validateCommand (.publishAmqpBatch project timestampMs recs) = .ok ()) :
    Meets (publishAmqpBatch runtime s project timestampMs recs)
      (fun published => ∃ routed counts, s.routeRecords project recs.zipIdx ∅ = .ok (routed, counts) ∧
        Settled runtime orderly published.1 ∧
        published.2 = .amqpBatchPublished (routedOffsets (logEnd s) routed (recs.map fun _ => [])) ∧
        let pending := pendingOf s.nextMessageId (routed.map (·.record.entry))
        Published runtime project timestampMs s published.1 pending
          (routedDrafts (routed.zip pending))) Overflow := by
  obtain ⟨_, valid, accepted⟩ := bind_eq_ok.mp accepted
  obtain ⟨counts, counted, appends⟩ := bind_eq_ok.mp accepted
  obtain ⟨bounded, small⟩ := validateAmqpBatch_eq_ok valid
  have listed : recs.zipIdx.map (·.1) = recs := zipIdx_map_fst 0 recs
  obtain ⟨routed, ran, short, each⟩ := routeRecords_eq_ok (listed.symm ▸ counted)
  rw [length_zipIdx] at short
  rw [listed] at each
  unfold publishAmqpBatch
  apply Meets.passed valid
  apply Meets.passed ran
  apply Meets.passed appends
  refine Meets.mono ?_ (fun published done => ⟨routed, counts, ran, done⟩) fun _ failed => failed
  split
  next unrouted =>
    rw [List.isEmpty_iff] at unrouted
    subst unrouted
    exact ⟨settled, rfl, .opened rfl (.refl project s) rfl fun _ _ known => known⟩
  next filled =>
    have nonempty : routed ≠ [] := by simpa using filled
    apply Meets.bind (pendingRecords_meets _)
    rintro pending (rfl : pending = pendingOf s.nextMessageId (routed.map (·.record.entry)))
    have entry : ∀ record ∈ pendingOf s.nextMessageId (routed.map (·.record.entry)),
        ∃ source ∈ routed, record.ingress = source.record.ingress ∧
          record.payload = source.record.payload := by
      intro record mem
      obtain ⟨source, inside, same⟩ := mem_map.mp (mem_pendingOf mem)
      exact ⟨source, inside, (Prod.mk.inj same).1.symm, (Prod.mk.inj same).2.symm⟩
    have stocked := pendingOf_ne_nil s.nextMessageId (show routed.map (·.record.entry) ≠
      [] by simpa using nonempty)
    apply Meets.bind (writeRoutedBatch_meets lawful timestampMs stocked ?_)
    · rintro ⟨desc, locs⟩ lodged
      have located : locs.length = _ := lodged.length
      apply Meets.require (decide_eq_true (Nat.le_trans short (Nat.le_trans bounded (by decide))))
      apply Meets.bind (allocatePayloadSegment_meets project settled lodged.family
        (by rw [ne_eq, length_eq_zero_iff]; exact nonempty)
        (Nat.le_trans short (Nat.le_trans bounded (by decide))) _ _)
      rintro ⟨opened, seg⟩ ⟨reledgered, lasts, advances, cursor, inv, owner, has, described, shared, _⟩
      generalize stored : pendingOf s.nextMessageId (routed.map (·.record.entry)) = pending at *
      have counted : pending.length = routed.length := by rw [← stored, length_pendingOf, length_map]
      have length : (routed.zip (pending.zip locs)).length = routed.length := by
        rw [length_zip, length_zip, located, Nat.min_self, counted, Nat.min_self]
      rw [← length] at inv
      have placed : ∀ entry ∈ routed.zip (pending.zip locs), Routed opened project recs entry.1 := by
        intro entry mem
        have old := each entry.1 (of_mem_zip mem).1
        exact { old with inProject := fun id inside => (old.inProject id inside).reledger reledgered }
      refine Meets.bind (publishRouted_meets timestampMs _ _ inv has ?_ ?_ placed) ?_
      · intro index entry found
        have next := (getElem?_zip_eq_some.mp found).2
        rw [← stored] at next
        exact (show opened.nextMessageId = s.nextMessageId from cursor) ▸ zip_pendingOf next
      · intro place mem
        refine lodged.zip_lodges ?_ described shared seg _ (of_mem_zip mem).2
        intro record inside
        obtain ⟨source, origin, _, payload⟩ := entry record inside
        exact payload ▸ small _ (each source origin).listed
      · rintro ⟨final, offsets⟩ ⟨done, (rfl : offsets = _), published⟩
        have firsts : (routed.zip (pending.zip locs)).map (·.1) = routed :=
          map_fst_zip (by rw [length_zip, located, Nat.min_self, counted])
        have pairs : (routed.zip (pending.zip locs)).map (fun entry => (entry.1, entry.2.1)) =
            routed.zip pending := by
          rw [show
            (fun entry : BrokerStateMachine.RoutedRecord × PendingPayloadRecord × SegmentRecordLocation =>
            (entry.1, entry.2.1)) = Prod.map id Prod.fst from rfl, ← zip_map, map_id,
            map_fst_zip (Nat.le_of_eq located.symm)]
        have seconds : (routed.zip (pending.zip locs)).map (·.2.1) = pending := by
          rw [show
            (fun entry : BrokerStateMachine.RoutedRecord × PendingPayloadRecord × SegmentRecordLocation =>
            entry.2.1) = Prod.snd ∘ fun entry => (entry.1, entry.2.1) from rfl, ← map_map, pairs,
            map_snd_zip (Nat.le_of_eq counted)]
        rw [seconds, pairs] at published
        refine ⟨done, by rw [firsts, reledgered.logEnd], ?_⟩
        exact ((Published.opened reledgered advances cursor lasts).trans published).congr (nil_append _)
          fun _ => nil_append _
    · intro ingress found
      obtain ⟨source, _⟩ := exists_mem_of_ne_nil routed nonempty
      have alike : ∀ record ∈ pendingOf s.nextMessageId (routed.map (·.record.entry)),
          record.ingress = ingress := by
        intro record mem
        obtain ⟨source, inside, same, _⟩ := entry record mem
        rw [same]
        exact sharedIngress_eq_some found _ (mem_map_of_mem inside)
      refine ⟨?_, alike⟩
      obtain ⟨record, mem⟩ := exists_mem_of_ne_nil _ stocked
      obtain ⟨source, _, same, _⟩ := entry record mem
      rw [← alike record mem, same]
      rfl

end Route

end IronGraph.Broker
