import IronGraph.Broker.Redelivery

/-!
Delivery: the references a fetch selects, the payloads it loads for them, and what becomes of the
references of a classic queue.
-/

namespace IronGraph.Broker

open Std Outcome OrderedMap BrokerStateMachine List Error

variable {runtime : Runtime} {fail : Error → Prop} {s : BrokerStateMachine} {ref : StreamReference}
  {stream : StreamState}

section Load

def repeatedMessage : Error := internal "broker payload request repeats a canonical message ID"

variable {stored : List StoredPayloadRecord} {segs : ExtTreeMap Nat BrokerPayloadSegment}

theorem requestPayloads_distinct (requested : List StoredPayloadRecord)
    (distinct : ((requested ++ stored).map (·.id)).Nodup) :
    stored.foldlM requestPayload requested = .ok (requested ++ stored) := by
  induction stored generalizing requested with
  | nil =>
    rw [append_nil]
    rfl
  | cons first rest ih =>
    have fresh : (requested.any fun prior => prior.id == first.id) = false := by
      rw [map_append, map_cons] at distinct
      simp only [any_eq_false, beq_iff_eq]
      intro prior mem same
      exact (disjoint_of_nodup_append distinct) (mem_map_of_mem mem) (same ▸ mem_cons_self ..)
    have step : requestPayload requested first = .ok (requested ++ [first]) := by
      simp [requestPayload, fresh, require, bind, Except.bind, pure, Except.pure]
    rw [foldlM_cons, step]
    change rest.foldlM requestPayload (requested ++ [first]) = _
    rw [ih _ (by rw [← append_cons]; exact distinct), ← append_cons]

theorem requestPayloads_repeated (requested : List StoredPayloadRecord)
    (distinct : (requested.map (·.id)).Nodup)
    (repeated : ¬ ((requested ++ stored).map (·.id)).Nodup) :
    stored.foldlM requestPayload requested = .error repeatedMessage := by
  induction stored generalizing requested with
  | nil =>
    rw [append_nil] at repeated
    exact absurd distinct repeated
  | cons first rest ih =>
    rw [foldlM_cons]
    cases seen : requested.any fun prior => prior.id == first.id with
    | true =>
      rw [requestPayload, seen]
      rfl
    | false =>
      have step : requestPayload requested first = .ok (requested ++ [first]) := by
        simp [requestPayload, seen, require, bind, Except.bind, pure, Except.pure]
      rw [step]
      refine ih _ ?_ (by rw [← append_cons]; exact repeated)
      simp only [any_eq_false, beq_iff_eq] at seen
      rw [map_append, nodup_append']
      refine ⟨distinct, nodup_singleton _, ?_⟩
      simp only [map_cons, map_nil, disjoint_singleton, mem_map, not_exists, not_and]
      exact seen

theorem loadRecord_eq_ok {seg : BrokerPayloadSegment} {stored : StoredPayloadRecord}
    {payload : PayloadSegmentRecord} (loads : loadRecord runtime seg stored = .ok payload) :
    payload.id = stored.id ∧
    ∃ record, runtime.readRecordAt seg.descriptor stored.location = .ok record ∧
      materializeStoredPayload runtime record stored seg = .ok payload ∧
      validateLoadedPayload runtime stored seg.descriptor payload = .ok () := by
  obtain ⟨record, read, loads⟩ := bind_eq_ok.mp loads
  obtain ⟨found, materialized, loads⟩ := bind_eq_ok.mp loads
  obtain ⟨_, valid, same⟩ := bind_eq_ok.mp loads
  have equal : found = payload := Except.ok.inj same
  subst equal
  refine ⟨?_, record, read, materialized, valid⟩
  simp only [validateLoadedPayload, require_eq_ok, Bool.and_eq_true, beq_iff_eq] at valid
  exact valid.1.1.1.1.1.1.2

def PayloadSegmentRecord.delivered (record : PayloadSegmentRecord) : PayloadRecord :=
  { id := record.id
    resolvedTimeMs := record.resolvedTimeMs
    ingress := record.ingress
    payload := record.payload
    checksum := record.checksum }

theorem loadPayload_eq_ok {seg : BrokerPayloadSegment} {loaded : ExtTreeMap MessageId PayloadRecord}
    {stored : StoredPayloadRecord} {payload : PayloadSegmentRecord}
    (has : segs[stored.segment]? = some seg) (loads : loadRecord runtime seg stored = .ok payload)
    (fresh : stored.id ∉ loaded) :
    loadPayload runtime segs loaded stored = .ok (loaded.insert stored.id payload.delivered) := by
  obtain ⟨same, record, read, materialized, valid⟩ := loadRecord_eq_ok loads
  have unseen : loaded.contains payload.id = false := by
    rw [same, Bool.eq_false_iff]
    exact fun seen => fresh (ExtTreeMap.contains_iff_mem.mp seen)
  simp only [loadPayload, has, orElse, read, materialized, valid, unseen, require, bind,
    Except.bind, pure, Except.pure, Bool.not_false, if_true]
  rw [← same]
  rfl

theorem loadPayloads_meets (distinct : (stored.map (·.id)).Nodup)
    (readable : ∀ payload ∈ stored, ∃ seg loaded, segs[payload.segment]? = some seg ∧
      loadRecord runtime seg payload = .ok loaded) : Meets (loadPayloads runtime segs stored)
      (fun loaded => ∀ payload ∈ stored, ∃ record, loaded[payload.id]? = some record) fail := by
  unfold loadPayloads
  apply Meets.passed (requestPayloads_distinct [] distinct)
  rw [nil_append]
  generalize ordered : stored.insertionSort (fun left right => storedBefore left right = true) = sorted
  have permuted : sorted.Perm stored := ordered ▸ perm_insertionSort _ stored
  refine Meets.bind (Meets.loop (fun done loaded => loaded.size = done.length ∧
    ∀ key, key ∈ loaded ↔ key ∈ done.map (·.id)) ⟨rfl, by simp⟩ ?_) ?_
  · rintro done item rest loaded split ⟨size, keys⟩
    have listed : item ∈ sorted := by rw [← split]; simp
    obtain ⟨seg, payload, has, loads⟩ := readable item (permuted.mem_iff.mp listed)
    have fresh : item.id ∉ loaded := by
      rw [keys]
      have separate := (permuted.map (·.id)).nodup_iff.mpr distinct
      rw [← split, map_append, map_cons] at separate
      exact fun inside => (disjoint_of_nodup_append separate) inside (mem_cons_self ..)
    rw [loadPayload_eq_ok has loads fresh]
    refine ⟨?_, ?_⟩
    · rw [ExtTreeMap.size_insert, if_neg (by simpa using fresh), size, length_append]
      rfl
    · intro key
      rw [ExtTreeMap.mem_insert, LawfulEqCmp.compare_eq_iff_eq, keys, map_append, mem_append, or_comm]
      simp [eq_comm]
  · rintro loaded ⟨size, keys⟩
    have complete : ∀ payload ∈ stored, payload.id ∈ loaded := fun payload mem =>
      (keys payload.id).mpr (mem_map_of_mem (permuted.mem_iff.mpr mem))
    apply Meets.require
    · rw [Bool.and_eq_true, beq_iff_eq, all_eq_true]
      exact ⟨size.trans permuted.length_eq, fun payload mem =>
        ExtTreeMap.contains_iff_mem.mpr (complete payload mem)⟩
    · intro payload mem
      exact ⟨_, ExtTreeMap.getElem?_eq_some_getElem (complete payload mem)⟩

theorem loadPayloads_repeated (repeated : ¬ (stored.map (·.id)).Nodup) :
    loadPayloads runtime segs stored = .error repeatedMessage := by
  unfold loadPayloads
  rw [requestPayloads_repeated [] nodup_nil repeated]
  rfl

end Load

section Select

variable {orderly : Prop} {α β : Type} {kind : QueueKind} {pending : List PendingDelivery}

/-- Items are taken from the front as long as there is room for one more and the budget lasts. -/
structure Foremost (room budget : Nat) (weight : α → Nat) (listed chosen : List α) : Prop where
  front : chosen <+: listed
  few : chosen.length ≤ room
  light : (chosen.map weight).sum ≤ budget
  longest : ∀ count ≤ room, ((listed.take count).map weight).sum ≤ budget → listed.take count <+: chosen

section Foremost

variable {room budget : Nat} {weight : α → Nat} {item : α} {listed chosen : List α}

theorem Foremost.stop (full : room = 0 ∨ listed = [] ∨ ∃ item rest, listed = item :: rest ∧
    budget < weight item) : Foremost room budget weight listed [] := by
  refine ⟨ nil_prefix, Nat.zero_le _, Nat.zero_le _, fun count small light => ?_⟩
  rcases full with rfl | rfl | ⟨item, rest, rfl, heavy⟩
  · rw [Nat.le_zero.mp small, take_zero]
  · rw [take_nil]
  · cases count with
    | zero => exact nil_prefix
    | succ count =>
      rw [take_succ_cons, map_cons, sum_cons] at light
      omega

theorem Foremost.take (fits : weight item ≤ budget)
    (later : Foremost room (budget - weight item) weight listed chosen) :
    Foremost (room + 1) budget weight (item :: listed) (item :: chosen) := by
  have enough := later.light
  refine ⟨cons_prefix_cons.mpr ⟨rfl, later.front⟩, Nat.succ_le_succ later.few, ?_,
    fun count small light => ?_⟩
  · rw [map_cons, sum_cons]
    omega
  · cases count with
    | zero => exact nil_prefix
    | succ count =>
      rw [take_succ_cons, map_cons, sum_cons] at light
      exact cons_prefix_cons.mpr ⟨rfl, later.longest count (Nat.le_of_succ_le_succ small) (by omega)⟩

theorem Foremost.nodup_iff (foremost : Foremost room budget weight listed chosen) (key : α → β) :
    (∀ count ≤ room,
      ((listed.take count).map weight).sum ≤ budget → ((listed.take count).map key).Nodup) ↔
      (chosen.map key).Nodup := by
  constructor
  · intro distinct
    have whole := prefix_iff_eq_take.mp foremost.front
    rw [whole]
    exact distinct chosen.length foremost.few (whole ▸ foremost.light)
  · exact fun distinct count small light =>
      distinct.sublist ((foremost.longest count small light).sublist.map key)

end Foremost

def deliverable (kind : QueueKind) (reference : StreamReference) : Bool :=
  decide (kind = .classic → reference.delivery = .ready)

/-- What a record takes of the response to a fetch. -/
def responseBytes (s : BrokerStateMachine) (reference : StreamReference) : Nat :=
  (s.payloads[reference.message]?.elim 0 fun stored => stored.retainedBytes +
    s.payloadSegments[stored.segment]?.elim 0 (·.sharedIngressBytes)) + brokerDeliveryEnvelopeBytes

structure Picked (s : BrokerStateMachine) (kind : QueueKind) (references : List StreamReference)
    (pending : List PendingDelivery) : Prop where
  sublist : (pending.map (·.reference)).Sublist references
  stored : ∀ delivery ∈ pending, s.payloads[delivery.reference.message]? = some delivery.stored
  ready : kind = .classic → ∀ delivery ∈ pending, delivery.reference.delivery = .ready

theorem Picked.skip {rest : List StreamReference} (picked : Picked s kind rest pending) :
    Picked s kind (ref :: rest) pending :=
  { picked with sublist := picked.sublist.cons ref }

theorem Picked.take {reference : StreamReference} {rest : List StreamReference}
    {stored : StoredPayloadRecord}
    (picked : Picked s kind rest pending) (found : s.payloads[reference.message]? = some stored)
    (ready : deliverable kind reference) : Picked s kind (reference :: rest)
      ({ reference, stored } :: pending) :=
  ⟨picked.sublist.cons_cons reference, forall_mem_cons.mpr ⟨found, picked.stored⟩,
    fun classic => forall_mem_cons.mpr ⟨of_decide_eq_true ready classic, picked.ready classic⟩⟩

theorem responseBytes_eq {visibleBytes accounted total : Nat} {reference : StreamReference}
    {stored : StoredPayloadRecord}
    (found : s.payloads[reference.message]? = some stored)
    (counted : s.accountedPayloadBytes stored = .ok accounted)
    (summed : ((checkedSum visibleBytes accounted).bind fun bytes =>
      checkedSum bytes brokerDeliveryEnvelopeBytes) = some total) :
      total = visibleBytes + responseBytes s reference := by
  obtain ⟨segment, has, counted⟩ := bind_eq_ok.mp counted
  rw [orElse_eq_ok] at has counted
  obtain ⟨bytes, first, second⟩ := Option.bind_eq_some_iff.mp summed
  rw [responseBytes, found, Option.elim_some, has, Option.elim_some, (checkedSum_eq_some.mp counted).1,
    ← Nat.add_assoc, (checkedSum_eq_some.mp first).1, (checkedSum_eq_some.mp second).1]

theorem selectDeliveries_meets {project : ProjectId} {maximum : Nat}
    {references : List StreamReference}
    (charged : ∀ reference ∈ references, ∃ bytes, s.ledger.billed reference.message =
      some (project, bytes))
    {visibleBytes : Nat}
    (afforded : s.checkDeliveryBudget kind maximum references visibleBytes pending.length = .ok ()) :
    Meets (s.selectDeliveries kind maximum references visibleBytes pending)
      (fun selected => ∃ picked, selected = pending ++ picked ∧ Picked s kind references picked ∧
        Foremost (maximum - pending.length) (maxBrokerDeliveryResultBytes - visibleBytes)
          (responseBytes s)
          (references.filter (deliverable kind)) (picked.map (·.reference))) Overflow := by
  have none : ∀ list : List StreamReference, Picked s kind list [] :=
    fun list => ⟨nil_sublist list, nofun, fun _ => nofun⟩
  induction references generalizing visibleBytes pending with
  | nil => exact ⟨[], (append_nil _).symm, none [], .stop (.inr (.inl rfl))⟩
  | cons reference rest ih =>
    have later := fun other mem => charged other (mem_cons_of_mem reference mem)
    unfold selectDeliveries
    unfold checkDeliveryBudget at afforded
    split
    next full => exact ⟨[], (append_nil _).symm, none _, .stop (.inl (Nat.sub_eq_zero_of_le full))⟩
    next room =>
      rw [if_neg room] at afforded
      split
      next taken =>
        rw [if_pos taken] at afforded
        refine Meets.imp (ih later afforded) ?_
        rintro selected ⟨picked, same, found, foremost⟩
        refine ⟨picked, same, found.skip, ?_⟩
        rwa [filter_cons_of_neg (by simp [deliverable, taken])]
      next free =>
        have ready : deliverable kind reference = true :=
          decide_eq_true fun classic => by_contra fun held => free ⟨classic, held⟩
        rw [filter_cons_of_pos ready]
        rw [if_neg free] at afforded
        obtain ⟨bytes, billed⟩ := charged reference (by simp)
        obtain ⟨payload, found, afforded⟩ := bind_eq_ok.mp afforded
        obtain ⟨accounted, counted, afforded⟩ := bind_eq_ok.mp afforded
        obtain ⟨total, summed, afforded⟩ := bind_eq_ok.mp afforded
        rw [orElse_eq_ok] at found summed
        have bytes := responseBytes_eq found counted summed
        have positive : 0 < responseBytes s reference := Nat.add_pos_right _ (by decide)
        apply Meets.passed (orElse_eq_ok.mpr found)
        apply Meets.passed counted
        apply Meets.passed (orElse_eq_ok.mpr summed)
        split
        next heavy =>
          rw [if_pos heavy, require_eq_ok] at afforded
          apply Meets.require
          · cases pending with
            | nil => cases afforded
            | cons => rfl
          · exact ⟨[], (append_nil _).symm, none _, .stop (.inr (.inr ⟨_, _, rfl, by omega⟩))⟩
        next within =>
          rw [if_neg within] at afforded
          apply Meets.orElse
          · intro _
            simp [Overflow, overflowErrors]
          intro tag _
          refine Meets.imp (ih later (by simpa using afforded)) ?_
          rintro selected ⟨picked, same, chosen, foremost⟩
          refine ⟨{ reference, stored := payload } :: picked, by rw [same, ← append_cons],
            chosen.take found ready, ?_⟩
          rw [length_append, length_singleton, bytes, ← Nat.sub_sub _ visibleBytes] at foremost
          have another : maximum - pending.length = maximum - (pending.length + 1) + 1 := by omega
          rw [another]
          exact .take (by omega) foremost

theorem Accounts.readable {shelf : Shelf} {ledger : Ledger} {floating : MessageId → Prop}
    {missing : Nat → Nat}
    (accounts : Accounts runtime shelf ledger floating missing) {msg : MessageId}
    {payload : StoredPayloadRecord} (found : ledger.payloads[msg]? = some payload) :
    payload.id = msg ∧ ∃ seg loaded, ledger.segments[payload.segment]? = some seg ∧
      loadRecord runtime seg payload = .ok loaded := by
  obtain ⟨seg, _, has, housed⟩ := accounts.housed found
  obtain ⟨loaded, loads⟩ := housed.readable
  exact ⟨(accounts.identified found).1, seg, loaded, has, loads⟩

theorem StreamWell.itemsFrom_eq_filter (well : StreamWell stream) (start : Nat) :
    stream.records.itemsFrom (stream.records.head + (start - stream.baseOffset)) =
      stream.records.items.filter fun record => decide (start ≤ record.offset) := by
  rw [well.filled.itemsFrom_eq_drop (Nat.le_add_right _ _), Nat.add_sub_cancel_left]
  have split := take_append_drop (start - stream.baseOffset) stream.records.items
  have early : (stream.records.items.take (start - stream.baseOffset)).filter
      (fun record => decide (start ≤ record.offset)) = [] := by
    rw [filter_eq_nil_iff]
    intro record mem
    obtain ⟨index, found⟩ := mem_iff_getElem?.mp mem
    rw [getElem?_take] at found
    split at found
    next before =>
      have numbered := well.numbered found
      simp only [decide_eq_true_eq]
      omega
    · cases found
  have late : (stream.records.items.drop (start - stream.baseOffset)).filter
      (fun record => decide (start ≤ record.offset)) =
        stream.records.items.drop (start - stream.baseOffset) := by
    rw [filter_eq_self]
    intro record mem
    obtain ⟨index, found⟩ := mem_iff_getElem?.mp mem
    rw [getElem?_drop] at found
    have numbered := well.numbered found
    simp only [decide_eq_true_eq]
    omega
  calc stream.records.items.drop (start - stream.baseOffset)
      = (stream.records.items.take (start - stream.baseOffset) ++
          stream.records.items.drop (start - stream.baseOffset)).filter fun record =>
            decide (start ≤ record.offset) := by
        rw [filter_append, early, late, nil_append]
    _ = _ := by rw [split]

end Select

section Deliver

variable {orderly : Prop} {owner : Uuid} {auto : Bool} {consumer : Nat}

def delivered (automaticAck : Bool) (owner : Uuid) (consumer : Nat) (reference : StreamReference) :
    StreamReference :=
  { reference with
    delivery := bif automaticAck then .acknowledged
      else .unacked owner consumer (reference.offset + 1) }

theorem delivered_unacked {candidate : Uuid} {candidateConsumer tag : Nat}
    (held : (delivered auto owner consumer ref).delivery = .unacked candidate candidateConsumer tag) :
    auto = false ∧ candidate = owner ∧ candidateConsumer = consumer ∧ tag = ref.offset + 1 := by
  cases auto with
  | true => cases held
  | false =>
    simp only [delivered, cond_false, DeliveryState.unacked.injEq] at held
    exact ⟨rfl, held.1.symm, held.2.1.symm, held.2.2.symm⟩

theorem delivered_redelivery (auto : Bool) (identified : owner ≠ 0) (consumer : Nat) :
    Redelivery (delivered auto owner consumer) := by
  refine ⟨fun _ => rfl, fun _ => rfl, ?_⟩
  intro ref candidate candidateConsumer tag held
  obtain ⟨_, rfl, _, same⟩ := delivered_unacked held
  exact .inr ⟨identified, same⟩

theorem markDelivered_meets (well : StreamWell stream) (id : StreamId) (auto : Bool)
    (identified : owner ≠ 0) (consumer : Nat) {pending : List PendingDelivery}
    (listed : (pending.map (·.reference)).Sublist stream.records.items) :
    Meets (pending.foldlM (markDelivered auto owner consumer) { id, stream, changes := [] })
      (fun edit => edit.id = id ∧ Rewrote (delivered auto owner consumer) stream
        (pending.map (·.reference.offset)) edit.stream) fail := by
  have redelivery := delivered_redelivery auto identified consumer
  have distinct : (pending.map (·.reference.offset)).Nodup := by
    have offsets := well.nodup_offsets.sublist (listed.map (·.offset))
    rwa [map_map] at offsets
  refine Meets.loop (fun (done : List PendingDelivery) (edit : StreamEdit) => edit.id = id ∧
    Rewrote (delivered auto owner consumer) stream (done.map (·.reference.offset)) edit.stream)
    ?_ ?_
  · exact ⟨rfl, Rewrote.refl well⟩
  · rintro done item rest edit split ⟨same, rewrote⟩
    have mem : item.reference ∈ stream.records.items :=
      listed.mem (mem_map_of_mem (by rw [← split]; simp))
    have fresh : item.reference.offset ∉ done.map (·.reference.offset) := by
      rw [← split, map_append, map_cons] at distinct
      exact fun inside => (disjoint_of_nodup_append distinct) inside (mem_cons_self ..)
    obtain ⟨found, next⟩ := rewrote.set redelivery mem fresh
    unfold markDelivered
    rw [found]
    refine ⟨same, ?_⟩
    rw [map_append]
    exact next

def handsTo (id : StreamId) (owner : Uuid) (consumer : Nat) : StreamId → Uuid → Nat → Prop :=
  fun other candidate candidateConsumer => other = id ∧ candidate = owner ∧ candidateConsumer = consumer

theorem Invariant.deliver {floating : MessageId → Prop} {missing : Nat → Nat}
    {stale : ProjectId × Uuid → Prop} {slot : Slot} {offsets : List Nat} {edit : StreamEdit}
    (inv : Invariant runtime orderly s floating missing stale) (here : At s slot edit.id stream)
    (identified : owner ≠ 0)
    (rewrote : Rewrote (delivered auto owner consumer) stream offsets edit.stream)
    (ready : ∀ ref ∈ stream.records.items, ref.offset ∈ offsets → ref.delivery = .ready)
    (leased : auto = false → offsets ≠ [] → (slot.project, owner) ∈ s.deliveryLeases)
    (classic : Classic s slot) :
    Advances slot.project (handsTo edit.id owner consumer) s (s.commitStream edit) ∧
      Invariant runtime orderly (s.commitStream edit) floating missing stale := by
  have handed : ∀ ref ∈ stream.records.items, ref.offset ∈ offsets → ∀ candidate candidateConsumer tag,
      (delivered auto owner consumer ref).delivery = .unacked candidate candidateConsumer tag →
        (handsTo edit.id owner consumer edit.id candidate candidateConsumer ∧
          (slot.project, candidate) ∈ s.deliveryLeases ∧ Classic s slot) ∨
          ref.delivery = .unacked candidate candidateConsumer tag := by
    intro ref mem changed candidate candidateConsumer tag held
    obtain ⟨manual, rfl, rfl, _⟩ := delivered_unacked held
    exact .inl ⟨⟨rfl, rfl, rfl⟩, leased manual (ne_nil_of_mem changed), classic⟩
  obtain ⟨advances, after⟩ := inv.redeliver (handsTo edit.id owner consumer) here
    (delivered_redelivery auto identified consumer) rewrote handed
  refine ⟨advances, after.weaken (fun _ floats => floats) ?_⟩
  rintro key (outlived | ⟨_, ref, mem, changed, owned⟩)
  · exact outlived
  · rw [ready ref mem changed] at owned
    cases owned

theorem deliveryDeadline_meets (auto : Bool) (now : Int) :
    Meets (deliveryDeadline auto now) (fun deadline => deadline.isSome = !auto) Overflow := by
  cases auto with
  | true => exact rfl
  | false =>
    unfold deliveryDeadline
    cases checkedAddTime now deliveryLeaseMillis with
    | none => simp [orElse, Except.map, Meets, Overflow, overflowErrors]
    | some deadline => exact rfl

theorem deliverClassic_meets (settled : Settled runtime orderly s) {name : Name} {queue : Queue}
    (declared : s.queues[name]? = some queue) (classic : queue.kind = .classic)
    (found : s.streams[queue.stream]? = some stream) {pending : List PendingDelivery}
    (listed : (pending.map (·.reference)).Sublist stream.records.items)
    (ready : ∀ delivery ∈ pending, delivery.reference.delivery = .ready) (identified : owner ≠ 0)
    (consumer : Nat) (auto : Bool) (now : Int) :
    Meets (s.deliverClassic name.1 queue.stream pending owner consumer auto now)
      (fun s' => Settled runtime orderly s' ∧
        Advances name.1 (handsTo queue.stream owner consumer) s s' ∧
        ∃ after, s'.streams[queue.stream]? = some after ∧
          Rewrote (delivered auto owner consumer) stream (pending.map (·.reference.offset)) after)
      Overflow := by
  have here : At s (.queue name) queue.stream stream := ⟨by simp [slotStream, declared], found⟩
  have well := settled.logs here.standing
  have classicSlot : Classic s (.queue name) := ⟨name, queue, rfl, declared, classic⟩
  have untouched : ∀ ref ∈ stream.records.items, ref.offset ∈ pending.map (·.reference.offset) →
      ref.delivery = .ready := by
    intro ref mem inside
    obtain ⟨delivery, chosen, same⟩ := mem_map.mp inside
    have equal := well.offset_injective (listed.mem (mem_map_of_mem chosen)) mem same
    exact equal ▸ ready delivery chosen
  unfold deliverClassic
  apply Meets.bind (deliveryDeadline_meets auto now)
  intro deadline needed
  apply Meets.passed (orElse_eq_ok.mpr here.editStream)
  apply Meets.bind (markDelivered_meets well queue.stream auto identified consumer listed)
  rintro edit ⟨same, rewrote⟩
  have atEdit : At s (.queue name) edit.id stream := same.symm ▸ here
  have stored : ∀ leases capture, ({ s.commitStream edit with deliveryLeases := leases, capture } :
      BrokerStateMachine).streams[queue.stream]? = some edit.stream := by
    intro leases capture
    rw [← same]
    exact ExtTreeMap.getElem?_insert_self
  -- Without a lease nothing may be handed out; with one, it is as if the lease had been there before.
  have unleased : auto = true ∨ pending = [] → Settled runtime orderly (s.commitStream edit) ∧
      Advances name.1 (handsTo queue.stream owner consumer) s (s.commitStream edit) ∧
      ∃ after, (s.commitStream edit).streams[queue.stream]? = some after ∧
        Rewrote (delivered auto owner consumer) stream (pending.map (·.reference.offset)) after := by
    intro quiet
    obtain ⟨advances, after⟩ := settled.deliver atEdit identified rewrote untouched
      (fun manual some => absurd quiet (by simp_all)) classicSlot
    exact ⟨after, same ▸ advances, edit.stream, stored _ _, rewrote⟩
  have leased : ∀ due, pending ≠ [] → auto = false →
      Settled runtime orderly ((s.commitStream edit).insertLease (name.1, owner) due) ∧
      Advances name.1 (handsTo queue.stream owner consumer) s
        ((s.commitStream edit).insertLease (name.1, owner) due) ∧
      ∃ after, ((s.commitStream edit).insertLease (name.1,
        owner) due).streams[queue.stream]? = some after ∧
        Rewrote (delivered auto owner consumer) stream (pending.map (·.reference.offset)) after := by
    intro due chosen manual
    have before : Invariant runtime orderly (s.insertLease (name.1, owner) due) (fun _ =>
        False) (fun _ => 0) (fun key => False ∨ key = (name.1, owner)) :=
      { settled with leased := settled.leased.insert (name.1, owner) due }
    have early : At (s.insertLease (name.1, owner) due) (.queue name) edit.id stream :=
      ⟨atEdit.slot, atEdit.stream⟩
    obtain ⟨advances, after⟩ := before.deliver early identified rewrote untouched
      (fun _ _ => ExtTreeMap.mem_insert_self) classicSlot
    have standing : ((s.commitStream edit).insertLease (name.1, owner) due).shelf (.queue name) =
        some edit.stream := by
      rw [show ((s.commitStream edit).insertLease (name.1, owner) due).shelf =
        Function.update s.shelf (.queue name) (some edit.stream) from
        settled.owned.shelfOf_insert atEdit.slot edit.stream, Function.update_self]
    have holds : HeldIn edit.stream owner := by
      obtain ⟨delivery, mem⟩ := exists_mem_of_ne_nil pending chosen
      refine ⟨rewriteAt (delivered auto owner consumer) (pending.map (·.reference.offset))
        delivery.reference, ?_, ?_⟩
      · rw [rewrote.items]
        exact mem_map_of_mem (listed.mem (mem_map_of_mem mem))
      · rw [rewriteAt, if_pos (mem_map_of_mem mem), manual]
        exact beq_self_eq_true owner
    have recaptured := after.recapture ((s.commitStream edit).insertLease (name.1, owner) due).capture
    refine ⟨{ recaptured with leased := recaptured.leased.settle ?_ }, ?_, edit.stream,
      stored _ _, rewrote⟩
    · rintro project candidate (outlived | same)
      · exact .inr outlived
      · rw [Prod.mk.injEq] at same
        exact .inl ⟨.queue name, edit.stream, same.1.symm, standing, same.2 ▸ holds⟩
    · have both := ((insertLease_advances s name.1 owner due).hand
        (handsTo edit.id owner consumer)).trans advances
      exact same ▸ both.recapture ((s.commitStream edit).insertLease (name.1, owner) due).capture
  cases deadline with
  | none =>
    cases auto with
    | true => exact unleased (.inl rfl)
    | false => cases needed
  | some due =>
    cases auto with
    | true => cases needed
    | false =>
      cases pending with
      | nil => exact unleased (.inr rfl)
      | cons first rest => exact leased _ (cons_ne_nil _ _) rfl

/-- What a fetch can deliver, in order and within the bounds of a response, holds no message twice. -/
def FetchesDistinct (s : BrokerStateMachine) (project : ProjectId) (queue : String)
    (offset : StreamOffset) (maximum : Nat) : Prop :=
  ∀ record stream start, s.queues[(project, queue)]? = some record →
    s.streams[record.stream]? = some stream → s.resolveOffset stream offset = .ok start →
      let listed := (stream.records.items.filter fun reference =>
        decide (start ≤ reference.offset)).filter (deliverable record.kind)
      ∀ count ≤ maximum, ((listed.take count).map (responseBytes s)).sum ≤
        maxBrokerDeliveryResultBytes → ((listed.take count).map (·.message)).Nodup

structure Fetched (s : BrokerStateMachine) (queue : Queue) (stream : StreamState) (owner : Uuid)
    (consumer : Nat)
    (automaticAck : Bool) (pending : List PendingDelivery) (s' : BrokerStateMachine)
    (deliveries : List Delivery) :
    Prop where
  found : s.streams[queue.stream]? = some stream
  picked : Picked s queue.kind stream.records.items pending
  delivered : List.Forall₂ (fun (chosen : PendingDelivery) (delivery : Delivery) =>
    delivery.offset = chosen.reference.offset ∧ delivery.deliveryTag =
      chosen.reference.offset + 1) pending deliveries
  classic : queue.kind = .classic → ∃ after, s'.streams[queue.stream]? = some after ∧
    Rewrote (Broker.delivered automaticAck owner consumer) stream
      (pending.map (·.reference.offset)) after
  stream : queue.kind = .stream → s' = s

theorem buildDelivery_meets {loaded : ExtTreeMap MessageId PayloadRecord} {payload : PayloadRecord}
    {queue : String} {chosen : PendingDelivery} (found : loaded[chosen.stored.id]? = some payload) :
    Meets (buildDelivery queue loaded chosen)
      (fun delivery => delivery.offset = chosen.reference.offset ∧
        delivery.deliveryTag = chosen.reference.offset + 1) Overflow := by
  unfold buildDelivery
  apply Meets.passed (orElse_eq_ok.mpr found)
  apply Meets.orElse
  · intro _
    simp [Overflow, overflowErrors]
  intro tag sum
  exact ⟨rfl, (checkedSum_eq_some.mp sum).1.symm⟩

theorem fetchQueue_meets (settled : Settled runtime orderly s) {project : ProjectId} {queue : String}
    {offset : StreamOffset} {maximum : Nat} {now : Int}
    (valid : s.validateCommand (.deliverQueue project queue offset maximum owner consumer auto
      now) = .ok ()) : ∃ record stream, s.queues[(project, queue)]? = some record ∧
      Meets (fetchQueue runtime s project queue offset maximum owner consumer auto
          now)
        (fun fetched => Settled runtime orderly fetched.1 ∧
          Advances project (handsTo record.stream owner consumer) s fetched.1 ∧
          FetchesDistinct s project queue offset maximum ∧
          ∃ pending, Fetched s record stream owner consumer auto pending fetched.1 fetched.2)
        (fun error => Overflow error ∨ (error = repeatedMessage ∧
          ¬ FetchesDistinct s project queue offset maximum)) := by
  obtain ⟨_, identified, valid⟩ := bind_eq_ok.mp valid
  obtain ⟨_, _, valid⟩ := bind_eq_ok.mp valid
  obtain ⟨record, declared, valid⟩ := bind_eq_ok.mp valid
  obtain ⟨stream, found, valid⟩ := bind_eq_ok.mp valid
  obtain ⟨start, resolved, afforded⟩ := bind_eq_ok.mp valid
  rw [require_eq_ok, bne_iff_ne] at identified
  rw [orElse_eq_ok] at declared found
  have here : At s (.queue (project, queue)) record.stream stream :=
    ⟨by simp [slotStream, declared], found⟩
  have well := settled.logs here.standing
  refine ⟨record, stream, declared, ?_⟩
  rw [← well.itemsFrom_eq_filter] at afforded
  have walked := well.itemsFrom_eq_filter start
  generalize listed : stream.records.itemsFrom (stream.records.head +
    (start - stream.baseOffset)) = refs
    at afforded walked
  have inside : refs.Sublist stream.records.items := walked ▸ filter_sublist
  have charged : ∀ ref ∈ refs, ∃ bytes, s.ledger.billed ref.message = some (project, bytes) :=
    fun ref mem => settled.accounts.backed (show Refers s.shelf (.queue (project, queue)) _ from
      ⟨stream, here.standing, mem_map_of_mem (inside.mem mem)⟩)
  unfold fetchQueue
  apply Meets.passed (orElse_eq_ok.mpr declared)
  apply Meets.passed (orElse_eq_ok.mpr found)
  apply Meets.passed resolved
  rw [listed]
  have selection := selectDeliveries_meets charged
    (show s.checkDeliveryBudget record.kind maximum refs 0
    ([] : List PendingDelivery).length = .ok () from afforded)
  generalize s.selectDeliveries record.kind maximum refs 0 [] = outcome at selection
  cases outcome with
  | error error => exact .inl selection
  | ok pending =>
    obtain ⟨_, same, among, foremost⟩ := selection
    obtain rfl := same.trans (nil_append _)
    have picked : Picked s record.kind stream.records.items pending :=
      { among with sublist := among.sublist.trans inside }
    apply Meets.passed rfl
    have decided : FetchesDistinct s project queue offset maximum ↔
        (pending.map (·.stored.id)).Nodup := by
      have ids : pending.map (·.stored.id) = (pending.map (·.reference)).map (·.message) := by
        rw [map_map, map_inj_left]
        exact fun chosen mem => (settled.accounts.readable (picked.stored chosen mem)).1
      rw [ids, ← foremost.nodup_iff, walked]
      refine ⟨fun free => free record stream start declared found resolved, ?_⟩
      intro distinct _ _ _ declared' found' resolved'
      obtain rfl := Option.some.inj (declared.symm.trans declared')
      obtain rfl := Option.some.inj (found.symm.trans found')
      obtain rfl := Except.ok.inj (resolved.symm.trans resolved')
      exact distinct
    rw [decided]
    by_cases distinct : (pending.map (·.stored.id)).Nodup
    · have readable : ∀ payload ∈ pending.map (·.stored), ∃ seg loaded,
          s.payloadSegments[payload.segment]? = some seg ∧
            loadRecord runtime seg payload = .ok loaded := by
        intro payload mem
        obtain ⟨chosen, among, rfl⟩ := mem_map.mp mem
        exact (settled.accounts.readable (picked.stored chosen among)).2
      apply Meets.bind (loadPayloads_meets (by rwa [map_map]) readable)
      intro loaded has
      apply Meets.bind (Meets.mono (Meets.mapM _ fun chosen mem =>
        (has chosen.stored (mem_map_of_mem mem)).elim fun _ found => buildDelivery_meets found)
        (fun _ held => held) fun _ => .inl)
      intro deliveries delivered
      cases kind : record.kind with
      | classic =>
        apply Meets.bind (Meets.mono (deliverClassic_meets settled
          (show s.queues[((project, queue) : Name)]? = some record from declared) kind found
          picked.sublist (picked.ready kind) identified consumer auto now)
          (fun _ held => held) fun _ => .inl)
        rintro s' ⟨settled', advances, rewrote⟩
        exact ⟨settled', advances, distinct, pending, found, picked, delivered, fun _ => rewrote,
          fun stream => absurd (kind.symm.trans stream) (by simp)⟩
      | stream =>
        exact ⟨settled, Advances.refl project s, distinct, pending, found, picked, delivered,
          fun classic => absurd (kind.symm.trans classic) (by simp), fun _ => rfl⟩
    · rw [loadPayloads_repeated (by rwa [map_map])]
      exact .inr ⟨rfl, distinct⟩

end Deliver

end IronGraph.Broker
