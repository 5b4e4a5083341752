import IronGraph.Broker.Exclusive

/-!
The validation at recovery accepts what the broker writes: the part over storage accepts every
state, the part over consumer groups every state of an orderly run.
-/

namespace IronGraph.Broker

open List hiding getElem?_insert
open Std Outcome OrderedMap BrokerStateMachine ExtTreeSet
open ExtTreeMap (ordered_keys length_keys contains_iff_mem mem_iff_isSome_getElem?)

variable {owners : ExtTreeMap StreamId ProjectId} {fail : Error → Prop} {runtime : Runtime}
  {s : BrokerStateMachine} {msg : MessageId}

section Owners

variable {id : StreamId}

theorem assignStream_eq (msg : String) (project : ProjectId) (absent : owners[id]? = none) :
    assignStream msg project owners id = .ok (owners.insert id project) := by
  have free : owners.contains id = false := by
    rw [ExtTreeMap.contains_eq_isSome_getElem?, absent]
    rfl
  unfold assignStream
  rw [free]
  rfl

theorem assignStreams_meets (msg : String) (project : ProjectId) {ids : List StreamId}
    (distinct : ids.Nodup)
    (free : ∀ id ∈ ids, owners[id]? = none) : Meets (ids.foldlM (assignStream msg project) owners)
      (fun assigned => ∀ id : StreamId, assigned[id]? = if id ∈ ids then some project
        else owners[id]?) fail := by
  induction ids generalizing owners with
  | nil => exact fun _ => rfl
  | cons first rest ih =>
    obtain ⟨fresh, distinctRest⟩ := nodup_cons.mp distinct
    apply Meets.passed (assignStream_eq msg project (free first mem_cons_self))
    have freeRest : ∀ id ∈ rest, (owners.insert first project)[id]? = none := by
      intro id mem
      have apart : first ≠ id := fun same => fresh (same ▸ mem)
      rw [getElem?_insert, if_neg apart]
      exact free id (mem_cons_of_mem _ mem)
    refine Meets.imp (ih distinctRest freeRest) ?_
    intro assigned known id
    rw [known id, getElem?_insert]
    by_cases here : id = first
    · subst here
      simp [fresh]
    · simp [here, Ne.symm here]

variable {s : BrokerStateMachine} {orderly : Prop}

theorem partitions_nodup (settled : Settled runtime orderly s) {name : Name} {topic : Topic}
    (found : s.topics[name]? = some topic) : topic.partitions.Nodup := by
  rw [nodup_iff_getElem?_ne_getElem?]
  intro first second ordered inside same
  have located : slotStream s.topics s.queues (.partition name first) = topic.partitions[first]? := by
    simp [slotStream, found]
  have alsoLocated : slotStream s.topics s.queues (.partition name second) =
      topic.partitions[second]? := by
    simp [slotStream, found]
  obtain ⟨id, has⟩ : ∃ id, topic.partitions[second]? = some id := by
    rw [← Option.isSome_iff_exists]
    simpa using inside
  have equal := settled.owned.injective (located.trans (same.trans has)) (alsoLocated.trans has)
  exact absurd (Slot.partition.inj equal).2 (Nat.ne_of_lt ordered)

def Assigned (topics : List (Name × Topic)) (queues : List (Name × Queue))
    (owners : ExtTreeMap StreamId ProjectId) :
    Prop :=
  ∀ (id : StreamId) (project : ProjectId), owners[id]? = some project ↔
    (∃ entry ∈ topics, entry.1.1 = project ∧ id ∈ entry.2.partitions) ∨
      ∃ entry ∈ queues, entry.1.1 = project ∧ entry.2.stream = id

theorem Assigned.absent {topics : List (Name × Topic)} {queues : List (Name × Queue)}
    (assigned : Assigned topics queues owners) (apartTopics : ∀ entry ∈ topics, id ∉ entry.2.partitions)
    (apartQueues : ∀ entry ∈ queues, entry.2.stream ≠ id) : owners[id]? = none := by
  cases found : owners[id]? with
  | none => rfl
  | some project =>
    rcases (assigned id project).mp found with ⟨entry, mem, _, inside⟩ | ⟨entry, mem, _, same⟩
    · exact absurd inside (apartTopics entry mem)
    · exact absurd same (apartQueues entry mem)

theorem mem_partitions {name : Name} {topic : Topic} (found : s.topics[name]? = some topic)
    (mem : id ∈ topic.partitions) :
    ∃ index, slotStream s.topics s.queues (.partition name index) = some id := by
  obtain ⟨index, has⟩ := mem_iff_getElem?.mp mem
  exact ⟨index, by simp [slotStream, found, has]⟩

theorem assignTopics_meets (settled : Settled runtime orderly s) :
    Meets (s.topics.toList.foldlM assignTopic ∅) (Assigned s.topics.toList []) fail := by
  have names : (s.topics.toList.map (·.1)).Nodup := by
    rw [ExtTreeMap.map_fst_toList_eq_keys]
    exact ExtTreeMap.nodup_keys
  refine Meets.loop (fun done owners => Assigned done [] owners) (fun id project => by simp) ?_
  rintro done ⟨name, topic⟩ rest owners whole assigned
  have found : s.topics[name]? = some topic := mem_toList.mp (by simp [← whole])
  obtain ⟨nonempty, few, valid⟩ := settled.declared.topic found
  unfold assignTopic
  apply Meets.require
  · simp [nonempty, few, valid, Except.isOk, Except.toBool]
  have fresh : ∀ entry ∈ done, entry.1 ≠ name := by
    intro entry mem same
    rw [← whole, map_append, map_cons, nodup_append] at names
    exact names.2.2 entry.1 (mem_map_of_mem mem) name mem_cons_self same
  have apart : ∀ entry ∈ done, ∀ id ∈ topic.partitions, id ∉ entry.2.partitions := by
    intro entry listed id mem inside
    have foundEntry : s.topics[entry.1]? = some entry.2 := mem_toList.mp (by simp [← whole, listed])
    obtain ⟨first, located⟩ := mem_partitions found mem
    obtain ⟨second, alsoLocated⟩ := mem_partitions foundEntry inside
    exact fresh entry listed (Slot.partition.inj (settled.owned.injective alsoLocated located)).1
  refine Meets.imp (assignStreams_meets _ name.1 (partitions_nodup settled found) ?_) ?_
  · exact fun id mem => assigned.absent (fun entry listed => apart entry listed id mem) nofun
  · intro final known id project
    rw [known id]
    split
    next mem =>
      have elsewhere : ∀ entry ∈ done, id ∉ entry.2.partitions :=
        fun entry listed => apart entry listed id mem
      simp only [Option.some.injEq, mem_append, mem_singleton, not_mem_nil, false_and, exists_false,
        or_false]
      constructor
      · exact fun same => ⟨(name, topic), .inr rfl, same, mem⟩
      · rintro ⟨entry, listed | rfl, same, inside⟩
        · exact absurd inside (elsewhere entry listed)
        · exact same
    next outside =>
      rw [assigned id project]
      simp only [mem_append, mem_singleton, not_mem_nil, false_and, exists_false, or_false]
      constructor
      · rintro ⟨entry, listed, same, inside⟩
        exact ⟨entry, .inl listed, same, inside⟩
      · rintro ⟨entry, listed | rfl, same, inside⟩
        · exact ⟨entry, listed, same, inside⟩
        · exact absurd inside outside

theorem streamProjects_meets (settled : Settled runtime orderly s) :
    Meets s.streamProjects (Assigned s.topics.toList s.queues.toList) fail := by
  have names : (s.queues.toList.map (·.1)).Nodup := by
    rw [ExtTreeMap.map_fst_toList_eq_keys]
    exact ExtTreeMap.nodup_keys
  refine Meets.bind (assignTopics_meets settled) ?_
  intro claimed topics
  refine Meets.loop (fun done owners => Assigned s.topics.toList done owners) topics ?_
  rintro done ⟨name, queue⟩ rest owners whole assigned
  have found : s.queues[name]? = some queue := mem_toList.mp (by simp [← whole])
  have located : slotStream s.topics s.queues (.queue name) = some queue.stream := by
    simp [slotStream, found]
  have valid := settled.declared.queue found
  have fresh : ∀ entry ∈ done, entry.2.stream ≠ queue.stream := by
    intro entry listed same
    have foundEntry : s.queues[entry.1]? = some entry.2 := mem_toList.mp (by simp [← whole, listed])
    have equal : entry.1 = name := queue_name_unique settled foundEntry found same
    rw [← whole, map_append, map_cons, nodup_append] at names
    exact names.2.2 entry.1 (mem_map_of_mem listed) name mem_cons_self equal
  have apart : ∀ entry ∈ s.topics.toList, queue.stream ∉ entry.2.partitions := by
    intro entry listed inside
    obtain ⟨index, alsoLocated⟩ := mem_partitions (mem_toList.mp listed) inside
    cases settled.owned.injective alsoLocated located
  unfold assignQueue
  apply Meets.require
  · simp [valid, Except.isOk, Except.toBool]
  rw [assignStream_eq _ name.1 (assigned.absent apart fresh)]
  intro id project
  rw [getElem?_insert]
  split
  next same =>
    subst same
    simp only [Option.some.injEq, mem_append, mem_singleton]
    constructor
    · exact fun same => .inr ⟨(name, queue), .inr rfl, same, rfl⟩
    · rintro (⟨entry, listed, _, inside⟩ | ⟨entry, listed | rfl, same, equal⟩)
      · exact absurd inside (apart entry listed)
      · exact absurd equal (fresh entry listed)
      · exact same
  next different =>
    rw [assigned id project]
    simp only [mem_append, mem_singleton]
    refine or_congr_right ⟨?_, ?_⟩
    · rintro ⟨entry, listed, same, equal⟩
      exact ⟨entry, .inl listed, same, equal⟩
    · rintro ⟨entry, listed | rfl, same, equal⟩
      · exact ⟨entry, listed, same, equal⟩
      · exact absurd equal different

theorem Assigned.slots {project : ProjectId}
    (assigned : Assigned s.topics.toList s.queues.toList owners) :
    owners[id]? = some project ↔ ∃ slot : Slot, slot.project = project ∧
    slotStream s.topics s.queues slot = some id := by
  rw [assigned id project]
  constructor
  · rintro (⟨entry, listed, rfl, inside⟩ | ⟨entry, listed, rfl, rfl⟩)
    · obtain ⟨index, located⟩ := mem_partitions (mem_toList.mp listed) inside
      exact ⟨.partition entry.1 index, rfl, located⟩
    · exact ⟨.queue entry.1, rfl, by simp [slotStream, mem_toList.mp listed]⟩
  · rintro ⟨slot, rfl, located⟩
    cases slot with
    | partition name index =>
      obtain ⟨topic, found, present⟩ := Option.bind_eq_some_iff.mp located
      exact .inl ⟨(name, topic), mem_toList.mpr found, rfl, mem_of_getElem? present⟩
    | queue name =>
      obtain ⟨queue, found, same⟩ := Option.map_eq_some_iff.mp located
      exact .inr ⟨(name, queue), mem_toList.mpr found, rfl, same⟩

end Owners

def positive (count : Nat) : Option Nat :=
  if count = 0 then none else some count

def seenPayloads (s : BrokerStateMachine) (tally : Tally) : ExtTreeMap MessageId StoredPayloadRecord :=
  s.payloads.filter fun message _ => tally.livePayloads.contains message

structure Tallied (s : BrokerStateMachine) (seen : MessageId → Prop) (held : ProjectId × Uuid → Prop)
    (tally : Tally) : Prop where
  payloads : ∀ {message : MessageId}, message ∈ tally.livePayloads ↔ seen message
  segments : ∀ id : Nat, tally.liveSegmentRecords[id]? =
    positive (census (seenPayloads s tally) fun payload => payload.segment == id)
  leases : ∀ {key : ProjectId × Uuid}, key ∈ tally.liveDeliveryLeases ↔ held key

section Walk

variable {orderly : Prop} {tally : Tally} {seen : MessageId → Prop} {held : ProjectId × Uuid → Prop}
  {payload : StoredPayloadRecord} {stream : StreamState} {ref : StreamReference} {slot : Slot}

theorem positive_getD (count : Nat) : (positive count).getD 0 = count := by
  unfold positive
  split
  next zero => exact zero.symm
  · rfl

theorem Tallied.mono {seen' : MessageId → Prop} {held' : ProjectId × Uuid → Prop}
    (tallied : Tallied s seen held tally) (sameSeen : ∀ msg, seen msg ↔ seen' msg)
    (sameHeld : ∀ key, held key ↔ held' key) : Tallied s seen' held' tally :=
  ⟨tallied.payloads.trans (sameSeen _), tallied.segments, tallied.leases.trans (sameHeld _)⟩

theorem seenPayloads_insert (found : s.payloads[msg]? = some payload)
    (liveSegmentRecords : ExtTreeMap Nat Nat) :
    seenPayloads s { tally with livePayloads := tally.livePayloads.insert msg, liveSegmentRecords } =
      (seenPayloads s tally).insert msg payload := by
  apply ExtTreeMap.ext_getElem?
  intro other
  unfold seenPayloads
  rw [getElem?_insert, ExtTreeMap.getElem?_filter', ExtTreeMap.getElem?_filter']
  by_cases here : msg = other
  · subst here
    simp [found]
  · have apart : (compare msg other == .eq) = false :=
      beq_eq_false_iff_ne.mpr fun equal => here (LawfulEqCmp.compare_eq_iff_eq.mp equal)
    simp [here, apart, ExtTreeSet.contains_insert]

theorem tallyPayload_meets (settled : Settled runtime orderly s) (tallied : Tallied s seen held tally)
    (found : s.payloads[msg]? = some payload) : Meets (tallyPayload tally msg payload.segment)
      (Tallied s (fun other => seen other ∨ other = msg) held) fail := by
  unfold tallyPayload
  split
  next known =>
    have already := tallied.payloads.mp (ExtTreeSet.contains_iff_mem.mp known)
    refine tallied.mono (fun other => ⟨.inl, ?_⟩) fun _ => Iff.rfl
    rintro (before | rfl)
    · exact before
    · exact already
  next fresh =>
    have unseen : (seenPayloads s tally)[msg]? = none := by
      unfold seenPayloads
      rw [ExtTreeMap.getElem?_filter', found]
      simpa using fresh
    obtain ⟨seg, _, has, _⟩ := settled.accounts.housed found
    have counted := settled.accounts.counted has
    have small := (settled.accounts.labelled has).2.2.2
    have grown : ∀ id, census ((seenPayloads s tally).insert msg payload) (fun other =>
        other.segment == id) = census (seenPayloads s tally) (fun other =>
          other.segment == id) + if payload.segment == id then 1 else 0 :=
      fun id => census_insert unseen _
    have count : tally.liveSegmentRecords.getD payload.segment 0 =
        census (seenPayloads s tally) fun other => other.segment == payload.segment := by
      rw [ExtTreeMap.getD_eq_getD_getElem?, tallied.segments, positive_getD]
    rw [count]
    -- The segment counts all its payloads, and the walk has seen some of them.
    have room : census (seenPayloads s tally) (fun other =>
        other.segment == payload.segment) + 1 ≤ u32Max := by
      have bound : census ((seenPayloads s tally).insert msg payload) (fun other =>
          other.segment == payload.segment) ≤
          census s.payloads fun other => other.segment == payload.segment := by
        rw [← seenPayloads_insert found ∅]
        exact census_filter_le _ _ _
      rw [grown, if_pos (beq_self_eq_true _)] at bound
      rw [counted] at small
      exact Nat.le_trans bound small
    apply Meets.require (decide_eq_true room)
    refine ⟨?_, ?_, tallied.leases⟩
    · intro other
      change other ∈ tally.livePayloads.insert msg ↔ _
      rw [mem_insert, LawfulEqCmp.compare_eq_iff_eq, tallied.payloads, or_comm, eq_comm]
    · intro id
      rw [seenPayloads_insert found, grown id]
      change (tally.liveSegmentRecords.insert payload.segment _)[id]? = _
      rw [getElem?_insert]
      split
      next same =>
        subst same
        simp [positive]
      next other =>
        rw [tallied.segments, if_neg (by simpa using other), Nat.add_zero]

theorem tallyDelivery_meets (tallied : Tallied s seen held tally) (well : StreamWell stream)
    (mem : ref ∈ stream.records.items) (project : ProjectId) :
    Meets (tallyDelivery project tally ref.delivery)
      (Tallied s seen fun key => held key ∨ (key.1 = project ∧
        ref.delivery.ownedBy key.2 = true)) fail := by
  cases delivery : ref.delivery with
  | unacked owner consumer tag =>
    have identified := (well.tagged mem delivery).1
    unfold tallyDelivery
    apply Meets.require (by simpa using identified)
    refine ⟨tallied.payloads, tallied.segments, ?_⟩
    rintro ⟨otherProject, other⟩
    change (otherProject, other) ∈ tally.liveDeliveryLeases.insert (project, owner) ↔ _
    rw [mem_insert, LawfulEqCmp.compare_eq_iff_eq, tallied.leases, or_comm, Prod.mk.injEq,
      eq_comm (a := project), DeliveryState.ownedBy, beq_iff_eq]
  | _ => exact tallied.mono (fun _ => Iff.rfl) fun key => by simp [DeliveryState.ownedBy]

structure Walked (s : BrokerStateMachine) (project : ProjectId) (stream : StreamState)
    (seen : MessageId → Prop)
    (held : ProjectId × Uuid → Prop) (done : List StreamReference) (walk : StreamWalk) : Prop where
  expected : walk.expected = stream.baseOffset + done.length
  retainedBytes : walk.retainedBytes = (done.map fun reference => s.ledger.bill reference.message).sum
  tallied : Tallied s (fun message => seen message ∨ message ∈ done.map (·.message))
    (fun key => held key ∨ (key.1 = project ∧ ∃ reference ∈ done, reference.delivery.ownedBy key.2 =
      true)) walk.tally

variable (settled : Settled runtime orderly s)
include settled

theorem validateReference_meets {done rest : List StreamReference} {walk : StreamWalk}
    (standing : s.shelf slot = some stream) (whole : done ++ ref :: rest = stream.records.items)
    (walked : Walked s slot.project stream seen held done walk) :
    Meets (s.validateReference slot.project walk ref)
      (Walked s slot.project stream seen held (done ++ [ref])) fail := by
  have well := settled.logs standing
  have mem : ref ∈ stream.records.items := by simp [← whole]
  have placed : stream.records.items[done.length]? = some ref := by simp [← whole]
  have referred : Refers s.shelf slot ref.message := ⟨stream, standing, mem_map_of_mem mem⟩
  obtain ⟨payload, seg, found, has, housed, _, total⟩ := settled.accounts.stored referred
  have below := (well.position mem).2.1
  have bounded := well.bounded
  have numbered := well.numbered placed
  -- What is retained up to here is part of what the stream retains.
  have part : ((done ++ [ref]).map fun ref => s.ledger.bill ref.message).sum < u64Limit := by
    have affordable := settled.accounts.affordable standing
    rw [settled.accounts.balanced standing, StreamState.messages, ← whole] at affordable
    simp only [map_append, map_cons, map_nil, map_map, sum_append, sum_cons,
      sum_nil, Function.comp_def] at affordable ⊢
    omega
  rw [map_append, sum_append, map_singleton, sum_singleton, ← walked.retainedBytes] at part
  have next : walk.expected + 1 < u64Limit := by
    rw [walked.expected, ← numbered]
    exact Nat.lt_of_le_of_lt below bounded
  have accounted : s.accountedPayloadBytes payload = .ok (s.ledger.bill ref.message) := by
    unfold accountedPayloadBytes
    refine bind_eq_ok.mpr ⟨seg, orElse_eq_ok.mpr has,
      orElse_eq_ok.mpr (checkedSum_eq_some.mpr ⟨total, ?_⟩)⟩
    exact total ▸ Nat.lt_of_le_of_lt (Nat.le_add_left _ _) part
  unfold validateReference
  apply Meets.require (by rw [beq_iff_eq, numbered, walked.expected])
  apply Meets.passed (orElse_eq_ok.mpr (checkedSum_eq_some.mpr ⟨rfl, next⟩))
  apply Meets.passed (orElse_eq_ok.mpr found)
  apply Meets.passed (orElse_eq_ok.mpr has)
  apply Meets.require housed.scope
  apply Meets.bind (tallyPayload_meets settled walked.tallied found)
  intro counted talliedPayload
  apply Meets.passed accounted
  apply Meets.passed (orElse_eq_ok.mpr (checkedSum_eq_some.mpr ⟨rfl, part⟩))
  apply Meets.bind (tallyDelivery_meets talliedPayload well mem slot.project)
  intro final talliedDelivery
  refine ⟨?_, ?_, talliedDelivery.mono ?_ ?_⟩
  · change walk.expected + 1 = _
    rw [walked.expected, length_append, length_singleton, Nat.add_assoc]
  · change walk.retainedBytes + _ = _
    rw [walked.retainedBytes, map_append, sum_append, map_singleton, sum_singleton]
  · intro msg
    simp [or_assoc]
  · intro key
    simp only [mem_append, mem_singleton, or_and_right, exists_or, exists_eq_left,
      and_or_left, or_assoc]

theorem walkStream_meets (standing : s.shelf slot = some stream) (tallied : Tallied s seen held tally) :
    Meets (stream.records.items.foldlM (s.validateReference slot.project)
        { expected := stream.baseOffset, retainedBytes := 0, tally })
      (Walked s slot.project stream seen held stream.records.items) fail := by
  refine Meets.loop (Walked s slot.project stream seen held)
    ⟨rfl, rfl, tallied.mono (fun _ => by simp) fun _ => by simp⟩ ?_
  intro done ref rest walk whole walked
  exact validateReference_meets settled standing whole walked

def Surveyed (s : BrokerStateMachine) (done : List (StreamId × StreamState)) : Tally → Prop :=
  Tallied s (fun message => ∃ entry ∈ done, message ∈ entry.2.messages) fun key =>
    ∃ entry ∈ done, (∃ slot : Slot, slot.project = key.1 ∧
      slotStream s.topics s.queues slot = some entry.1) ∧ HeldIn entry.2 key.2

theorem validateStream_meets {owners : ExtTreeMap StreamId ProjectId}
    (assigned : Assigned s.topics.toList s.queues.toList owners) {done : List (StreamId × StreamState)}
    (surveyed : Surveyed s done tally) {id : StreamId} (has : s.streams[id]? = some stream) :
    Meets (s.validateStream owners tally (id, stream)) (Surveyed s (done ++ [(id, stream)])) fail := by
  obtain ⟨slot, located⟩ := settled.owned.slotted has
  have standing : s.shelf slot = some stream := shelfOf_eq_some.mpr ⟨id, located, has⟩
  have length := (settled.logs standing).length
  unfold validateStream
  apply Meets.require (decide_eq_true (by omega))
  apply Meets.passed (orElse_eq_ok.mpr (assigned.slots.mpr ⟨slot, rfl, located⟩))
  apply Meets.bind (walkStream_meets settled standing surveyed)
  intro walk walked
  have ended : walk.expected = stream.nextOffset := walked.expected.trans length.symm
  have balanced : walk.retainedBytes = stream.retainedBytes := by
    rw [walked.retainedBytes, settled.accounts.balanced standing, StreamState.messages, map_map]
    rfl
  apply Meets.require
    (by rw [ended, balanced, Bool.and_eq_true, beq_self_eq_true, beq_self_eq_true]; exact ⟨rfl, rfl⟩)
  refine walked.tallied.mono ?_ ?_
  · intro msg
    simp only [mem_append, mem_singleton, or_and_right, exists_or, exists_eq_left]
    rfl
  · intro key
    simp only [mem_append, mem_singleton, or_and_right, exists_or, exists_eq_left]
    refine or_congr_right (and_congr_left fun _ => ⟨fun same => ⟨slot, same.symm, located⟩, ?_⟩)
    rintro ⟨other, same, alsoLocated⟩
    rw [← same, settled.owned.injective alsoLocated located]

theorem survey_meets (assigned : Assigned s.topics.toList s.queues.toList owners) :
    Meets (s.streams.toList.foldlM (s.validateStream owners)
        { livePayloads := ∅, liveSegmentRecords := ∅, liveDeliveryLeases := ∅ })
      (Surveyed s s.streams.toList) fail := by
  refine Meets.loop (Surveyed s) ?_ ?_
  · have nothing : seenPayloads s
        { livePayloads := ∅, liveSegmentRecords := ∅, liveDeliveryLeases := ∅ } = ∅ := by
      apply ExtTreeMap.ext_getElem?
      intro msg
      simp [seenPayloads]
    refine ⟨by simp, ?_, by simp⟩
    intro id
    rw [nothing, census_empty]
    rfl
  · rintro done ⟨id, stream⟩ rest tally whole surveyed
    have has : s.streams[id]? = some stream := mem_toList.mp (by simp [← whole])
    exact validateStream_meets settled assigned surveyed has

end Walk

section Storage

variable {orderly : Prop}

section

variable (settled : Settled runtime orderly s)

include settled

theorem cursorsCover_eq_true : s.cursorsCover = true := by
  unfold cursorsCover
  rw [Bool.and_eq_true, Bool.and_eq_true, all_eq_true, all_eq_true, all_eq_true]
  refine ⟨⟨?_, ?_⟩, ?_⟩
  · intro msg mem
    obtain ⟨payload, found⟩ := mem_keys.mp mem
    exact decide_eq_true (settled.accounts.identified found).2
  · intro id mem
    obtain ⟨stream, found⟩ := mem_keys.mp mem
    exact decide_eq_true (settled.owned.numbered found)
  · intro id mem
    obtain ⟨seg, found⟩ := mem_keys.mp mem
    exact decide_eq_true (settled.accounts.labelled found).2.1

theorem mem_owners_iff (assigned : Assigned s.topics.toList s.queues.toList owners) {id : StreamId} :
    id ∈ owners ↔ id ∈ s.streams := by
  rw [mem_iff_exists, mem_iff_exists]
  constructor
  · rintro ⟨project, found⟩
    obtain ⟨slot, _, located⟩ := assigned.slots.mp found
    exact settled.owned.declared located
  · rintro ⟨stream, has⟩
    obtain ⟨slot, located⟩ := settled.owned.slotted has
    exact ⟨slot.project, assigned.slots.mpr ⟨slot, rfl, located⟩⟩

variable {tally : Tally} (surveyed : Surveyed s s.streams.toList tally)
include surveyed

theorem Surveyed.mem_livePayloads : msg ∈ tally.livePayloads ↔ msg ∈ s.payloads := by
  rw [surveyed.payloads, mem_iff_exists]
  constructor
  · rintro ⟨⟨id, stream⟩, listed, mem⟩
    have has := mem_toList.mp listed
    obtain ⟨slot, located⟩ := settled.owned.slotted has
    have standing : s.shelf slot = some stream := shelfOf_eq_some.mpr ⟨id, located, has⟩
    obtain ⟨payload, _, found, _⟩ := settled.accounts.stored ⟨stream, standing, mem⟩
    exact ⟨payload, found⟩
  · rintro ⟨payload, found⟩
    obtain floats | ⟨slot, stream, standing, mem⟩ := settled.accounts.covered found
    · exact floats.elim
    · obtain ⟨id, _, has⟩ := shelfOf_eq_some.mp standing
      exact ⟨(id, stream), mem_toList.mpr has, mem⟩

theorem Surveyed.segment (id : Nat) :
    tally.liveSegmentRecords[id]? = (s.payloadSegments[id]?).map (·.liveRecords) := by
  have everything : seenPayloads s tally = s.payloads := by
    apply ExtTreeMap.ext_getElem?
    intro msg
    unfold seenPayloads
    rw [ExtTreeMap.getElem?_filter']
    cases found : s.payloads[msg]? with
    | none => rfl
    | some payload =>
      have has : msg ∈ s.payloads := by
        rw [mem_iff_isSome_getElem?, found]
        rfl
      rw [Option.filter_some,
        if_pos (ExtTreeSet.contains_iff_mem.mpr ((surveyed.mem_livePayloads settled).mpr has))]
  rw [surveyed.segments, everything]
  cases found : s.payloadSegments[id]? with
  | none =>
    have empty : census s.payloads (fun payload => payload.segment == id) = 0 := by
      refine Nat.eq_zero_of_not_pos fun some => ?_
      obtain ⟨msg, payload, has, same⟩ := census_pos_iff.mp some
      obtain ⟨seg, _, owned, _⟩ := settled.accounts.housed has
      rw [beq_iff_eq.mp same] at owned
      cases found.symm.trans owned
    rw [empty]
    rfl
  | some seg =>
    have counted : seg.liveRecords = census s.payloads (fun payload => payload.segment == id) + 0 :=
      settled.accounts.counted found
    have alive := (settled.accounts.labelled found).2.2.1
    rw [Nat.add_zero] at counted
    rw [← counted, positive, if_neg alive]
    rfl

theorem Surveyed.mem_leases {key : ProjectId × Uuid} :
    key ∈ s.deliveryLeases ↔ key ∈ tally.liveDeliveryLeases := by
  rw [surveyed.leases]
  constructor
  · intro leased
    obtain ⟨slot, stream, same, standing, held⟩ | stale := settled.leased.holder leased
    · obtain ⟨id, located, has⟩ := shelfOf_eq_some.mp standing
      exact ⟨(id, stream), mem_toList.mpr has, ⟨slot, same, located⟩, held⟩
    · exact stale.elim
  · rintro ⟨⟨id, stream⟩, listed, ⟨slot, same, located⟩, held⟩
    exact settled.leased.lease ⟨slot, stream, same, shelfOf_eq_some.mpr ⟨id, located,
      mem_toList.mp listed⟩, held⟩

omit surveyed

theorem validateStorage_meets : Meets s.validateStorage (fun _ => True) fail := by
  unfold validateStorage
  apply Meets.require (cursorsCover_eq_true settled)
  apply Meets.bind (streamProjects_meets settled)
  intro owners assigned
  have sameStreams : owners.keys = s.streams.keys :=
    ascending_unique ordered_keys ordered_keys fun id => by
      rw [ExtTreeMap.mem_keys, ExtTreeMap.mem_keys, mem_owners_iff settled assigned]
  apply Meets.require
  · rw [Bool.and_eq_true, beq_iff_eq, ← length_keys, ← length_keys, sameStreams, all_eq_true]
    exact ⟨rfl, fun id mem => contains_iff_mem.mpr (ExtTreeMap.mem_keys.mp mem)⟩
  apply Meets.bind (survey_meets settled assigned)
  intro tally surveyed
  have samePayloads : tally.livePayloads.toList = s.payloads.keys :=
    ascending_unique ExtTreeSet.ordered_toList ordered_keys fun msg => by
      rw [ExtTreeSet.mem_toList, ExtTreeMap.mem_keys, surveyed.mem_livePayloads settled]
  apply Meets.require
  · rw [Bool.and_eq_true, Bool.and_eq_true, beq_iff_eq, ← length_toList, samePayloads,
      length_keys, all_eq_true, all_eq_true]
    refine ⟨⟨rfl, ?_⟩, ?_⟩
    · intro msg mem
      exact ExtTreeSet.contains_iff_mem.mpr ((surveyed.mem_livePayloads settled).mpr
        (ExtTreeMap.mem_keys.mp mem))
    · rintro ⟨msg, payload⟩ listed
      exact beq_iff_eq.mpr (settled.accounts.identified (mem_toList.mp listed)).1.symm
  have sameSegments : tally.liveSegmentRecords.keys = s.payloadSegments.keys :=
    ascending_unique ordered_keys ordered_keys fun id => by
      rw [ExtTreeMap.mem_keys, ExtTreeMap.mem_keys, mem_iff_isSome_getElem?,
        mem_iff_isSome_getElem?, surveyed.segment settled, Option.isSome_map]
  apply Meets.require
  · rw [Bool.and_eq_true, beq_iff_eq, ← length_keys, sameSegments, length_keys, all_eq_true]
    refine ⟨rfl, ?_⟩
    rintro ⟨id, seg⟩ listed
    have found := mem_toList.mp listed
    obtain ⟨identified, _, alive, _⟩ := settled.accounts.labelled found
    simp [segmentMatches, identified, alive, surveyed.segment settled, found]
  apply Meets.require
  · rw [beq_iff_eq]
    refine ascending_unique ordered_keys ExtTreeSet.ordered_toList fun key => ?_
    rw [ExtTreeMap.mem_keys, ExtTreeSet.mem_toList, surveyed.mem_leases settled]
  have bound : s.bindings.toList.all s.bindingMatches = true := by
    rw [all_eq_true]
    rintro ⟨key, binding⟩ listed
    obtain ⟨fields, exchange, queue⟩ := settled.bound key binding (mem_toList.mp listed)
    have named : key.2.1 = binding.exchange := by rw [fields]
    simp [bindingMatches, named, ExtTreeMap.contains_iff_mem, exchange, queue]
  exact Meets.required bound trivial

end

structure StorageSound (s : BrokerStateMachine) : Prop where
  consecutive : ∀ {id : StreamId} {stream : StreamState}, s.streams[id]? = some stream →
    stream.records.items.map (·.offset) =
      range' stream.baseOffset (stream.nextOffset - stream.baseOffset)
  retained : ∀ {id : StreamId} {stream : StreamState}, s.streams[id]? = some stream →
    stream.retainedBytes = (stream.records.items.map fun reference =>
      s.ledger.bill reference.message).sum
  stored : ∀ {message : MessageId}, message ∈ s.payloads ↔
    ∃ (id : StreamId) (stream : StreamState), s.streams[id]? = some stream ∧ message ∈ stream.messages
  counted : ∀ {id : Nat} {segment : BrokerPayloadSegment}, s.payloadSegments[id]? = some segment →
    segment.liveRecords = census s.payloads fun payload => payload.segment == id
  leased : ∀ {project : ProjectId} {owner : Uuid}, (project, owner) ∈ s.deliveryLeases ↔
    Holds s.shelf project owner
  bound : ∀ {key : BindingKey} {binding : Binding}, s.bindings[key]? = some binding →
    (key.1, binding.exchange) ∈ s.exchanges ∧ (key.1, binding.queue) ∈ s.queues
  owned : ∀ {id : StreamId}, id ∈ s.streams ↔ ∃ slot, slotStream s.topics s.queues slot = some id
  once : ∀ {first second : Slot} {id : StreamId}, slotStream s.topics s.queues first = some id →
    slotStream s.topics s.queues second = some id → first = second

theorem storage_sound (settled : Settled runtime orderly s) : StorageSound s := by
  have standing : ∀ {id : StreamId} {stream : StreamState}, s.streams[id]? = some stream →
      ∃ slot, s.shelf slot = some stream := by
    intro id stream has
    obtain ⟨slot, located⟩ := settled.owned.slotted has
    exact ⟨slot, shelfOf_eq_some.mpr ⟨id, located, has⟩⟩
  refine ⟨?_, ?_, ?_, settled.accounts.counted, ?_, ?_, ?_, settled.owned.injective⟩
  · intro id stream has
    obtain ⟨slot, here⟩ := standing has
    have well := settled.logs here
    have length := well.length
    apply ext_getElem?
    intro index
    rw [getElem?_map]
    cases found : stream.records.items[index]? with
    | none =>
      rw [getElem?_eq_none_iff] at found
      rw [getElem?_eq_none (by rw [length_range']; omega)]
      rfl
    | some ref =>
      have inside := (List.getElem?_eq_some_iff.mp found).1
      rw [List.getElem?_range' (by omega), Nat.one_mul, ← well.numbered found]
      rfl
  · intro id stream has
    obtain ⟨slot, here⟩ := standing has
    rw [settled.accounts.balanced here, StreamState.messages, map_map]
    rfl
  · intro msg
    rw [mem_iff_exists]
    constructor
    · rintro ⟨payload, found⟩
      obtain floats | ⟨slot, stream, here, mem⟩ := settled.accounts.covered found
      · exact floats.elim
      · obtain ⟨id, _, has⟩ := shelfOf_eq_some.mp here
        exact ⟨id, stream, has, mem⟩
    · rintro ⟨id, stream, has, mem⟩
      obtain ⟨slot, here⟩ := standing has
      obtain ⟨payload, _, found, _⟩ := settled.accounts.stored ⟨stream, here, mem⟩
      exact ⟨payload, found⟩
  · intro project owner
    constructor
    · intro leased
      exact (settled.leased.holder leased).resolve_right id
    · exact settled.leased.lease
  · intro key binding found
    exact (settled.bound key binding found).2
  · intro id
    rw [mem_iff_exists]
    constructor
    · rintro ⟨stream, has⟩
      exact settled.owned.slotted has
    · rintro ⟨slot, located⟩
      exact settled.owned.declared located

end Storage

section Groups

variable (settled : Settled runtime True s)
include settled

theorem validateGroupMembers_eq {name : Name} {group : GroupState}
    (found : s.groups[name]? = some group) : validateGroupMembers group = .ok true := by
  have well := settled.grouped name group found
  unfold validateGroupMembers
  split
  · rfl
  next occupied =>
    obtain ⟨leader, chosen⟩ := well.led trivial (Bool.eq_false_iff.mpr occupied)
    rw [contains_iff_mem.mpr leader, chosen]
    simp

theorem validateGroup_meets {name : Name} {group : GroupState}
    (found : s.groups[name]? = some group) : Meets (s.validateGroup () (name, group))
      (fun _ => True) fail := by
  have well := settled.grouped name group found
  unfold validateGroup
  apply Meets.require (decide_eq_true well.generation)
  apply Meets.passed (validateGroupMembers_eq settled found)
  apply Meets.require
  · rw [Bool.true_and, all_eq_true]
    exact fun mem assigned => contains_iff_mem.mpr (well.assigned (ExtTreeMap.mem_keys.mp assigned))
  refine Meets.imp (Meets.foldlM (fun rest _ => ∀ entry ∈ rest, entry ∈
    group.offsets.toList) _ (fun _ => id) ?_) (fun _ _ => trivial)
  rintro ⟨⟨topic, part⟩, offset⟩ rest _ listed
  obtain ⟨nonnegative, stream, standing, reached⟩ :=
    well.committed (mem_toList.mp (listed _ mem_cons_self))
  obtain ⟨id, located, has⟩ := shelfOf_eq_some.mp standing
  have partitionStream : s.partitionStream name.1 topic part = .ok id := by
    unfold partitionStream
    exact bind_eq_ok.mpr ⟨(), require_eq_ok.mpr (decide_eq_true nonnegative), orElse_eq_ok.mpr located⟩
  unfold validateOffset
  apply Meets.passed partitionStream
  apply Meets.passed (orElse_eq_ok.mpr has)
  exact Meets.required (decide_eq_true reached) fun entry mem => listed entry (mem_cons_of_mem _ mem)

theorem validateGroups_meets : Meets s.validateGroups (fun _ => True) fail := by
  unfold validateGroups
  refine Meets.imp (Meets.foldlM (fun rest _ => ∀ entry ∈ rest, entry ∈
    s.groups.toList) _ (fun _ => id) ?_) (fun _ _ => trivial)
  rintro ⟨name, group⟩ rest _ listed
  refine Meets.imp (validateGroup_meets settled (mem_toList.mp (listed _ mem_cons_self))) ?_
  exact fun _ _ entry mem => listed entry (mem_cons_of_mem _ mem)

end Groups

section Contract

theorem ok_of_meets {ε : Type} {result : Except ε Unit}
    (met : Meets result (fun _ => True) fun _ => False) : result = .ok () := by
  cases result with
  | ok => rfl
  | error => exact met.elim

variable {actions : List Action}

/-- In every state of every run the storage is sound, and the validation at recovery finds it so. -/
theorem storage_recovers (lawful : Lawful runtime) (ran : run runtime .empty actions = .ok s) :
    s.validateStorage = .ok () ∧ StorageSound s := by
  have settled := Reachable.settled lawful ⟨actions, ran⟩
  exact ⟨ok_of_meets (validateStorage_meets settled), storage_sound settled⟩

theorem storage_recovers_consumed :
    ∃ s, run sevenStore .empty (publishActions ++ consumeActions) = .ok s ∧ s.validateStorage = .ok () ∧
      StorageSound s := by
  have ran := run_reached sevenStore .empty (publishActions ++ consumeActions) (by decide +kernel)
  exact ⟨_, ran, storage_recovers (loneStore_lawful _) ran⟩

/-- In every state of a run in which nobody joins a group that has run empty and nobody leaves
members behind who would choose another protocol, the groups are accepted at recovery. -/
theorem groups_recover (lawful : Lawful runtime) (tidy : TidyRun runtime .empty actions)
    (ran : run runtime .empty actions = .ok s) : s.validateGroups = .ok () ∧
    s.validateState = .ok () := by
  have settled : Settled runtime True s := run_settled lawful empty_settled (fun _ => tidy) ran
  have groups := ok_of_meets (validateGroups_meets settled)
  refine ⟨groups, ?_⟩
  unfold validateState
  exact bind_eq_ok.mpr ⟨(), ok_of_meets (validateStorage_meets settled), groups⟩

def join (member : String) (resolvedTimeMs : Int) (protocols : List String) : Action :=
  .command (.joinGroup 1 "g" member 1000 resolvedTimeMs
    (ExtTreeMap.ofList (protocols.map fun name => (name, []))))

def joinActions : List Action := [join "m" 0 ["range"], .command (.retain 1 500)]

theorem groups_recover_joined :
    ∃ s, run sevenStore .empty joinActions = .ok s ∧ s.validateGroups = .ok () ∧
    s.validateState = .ok () := by
  have ran := run_reached sevenStore .empty joinActions (by decide +kernel)
  refine ⟨_, ran, groups_recover (loneStore_lawful _) ?_ ran⟩
  exact ⟨fun _ found => absurd found nofun, fun _ _ => ⟨trivial, fun _ _ => trivial⟩⟩

def refillActions : List Action := [join "m" 0 ["range"], .command (.retain 1 5000),
    join "n" 5001 ["range"]]

def leaveActions : List Action := [join "m" 0 ["a", "b"], join "n" 0 ["b"],
    .command (.leaveGroup 1 "g" "n")]

theorem groups_not_recovered :
    (∃ s, run sevenStore .empty refillActions = .ok s ∧ s.validateGroups.isOk = false) ∧
      ∃ s, run sevenStore .empty leaveActions = .ok s ∧ s.validateGroups.isOk = false := by
  refine ⟨⟨_, run_reached _ _ _ ?_, ?_⟩, _, run_reached _ _ _ ?_, ?_⟩
  all_goals decide +kernel

end Contract

end IronGraph.Broker
