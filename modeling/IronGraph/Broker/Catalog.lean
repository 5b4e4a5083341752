import IronGraph.Broker.Retention

/-!
Declarations: topics, queues and exchanges enter the catalog, the first two with newly allocated
streams.
-/

namespace IronGraph.Broker

open Std Outcome OrderedMap BrokerStateMachine Option

/-- The catalog has grown: the slots in `fresh` are new and have empty streams, the others keep
theirs. -/
structure Enrolled (project : ProjectId) (s s' : BrokerStateMachine) (fresh : Slot → Bool) : Prop where
  enlisted : Enlisted s.topics s'.topics s.queues s'.queues s.streams s'.streams s.nextStreamId
    s'.nextStreamId fresh
  frame : s' = { s with
    topics := s'.topics
    queues := s'.queues
    streams := s'.streams
    nextStreamId := s'.nextStreamId
    capture := s'.capture }
  within : ∀ {slot}, fresh slot = true → slot.project = project
  topics : ∀ {name : Name}, name.1 ≠ project → s'.topics[name]? = s.topics[name]?
  queues : ∀ {name : Name}, name.1 ≠ project → s'.queues[name]? = s.queues[name]?
  kept : ∀ {name : Name} {queue : Queue}, s.queues[name]? = some queue →
    ∃ queue', s'.queues[name]? = some queue' ∧ queue'.kind = queue.kind
  origin : ∀ {name : Name} {after : Queue}, s'.queues[name]? = some after →
    s.nextStreamId < after.stream ∨ ∃ before, s.queues[name]? = some before ∧
      before.stream = after.stream ∧ before.kind = after.kind ∧
      before.exclusiveOwner = after.exclusiveOwner
  declared : Declared s'.topics s'.queues

variable {runtime : Runtime} {name : String} {retention : RetentionPolicy} {queue : Queue}
  {s : BrokerStateMachine} {project : ProjectId}

section Enroll

variable {orderly : Prop} {s' : BrokerStateMachine} {fresh : Slot → Bool}
  (enrolled : Enrolled project s s' fresh)
include enrolled

theorem Enrolled.eq : ∃ topics queues streams next capture,
    s' = { s with topics, queues, streams, nextStreamId := next, capture } :=
  ⟨_, _, _, _, _, enrolled.frame⟩

theorem Enrolled.settled (settled : Settled runtime orderly s) :
    Settled runtime orderly s' := by
  have old : ∀ {slot stream}, s.shelf slot = some stream → s'.shelf slot = some stream :=
    fun standing => settled.owned.shelfOf_enlisted enrolled.enlisted standing
  have new : ∀ {slot stream}, s'.shelf slot = some stream → s.shelf slot = some stream ∨
      stream = StreamState.empty :=
    fun standing => (settled.owned.shelfOf_enlist enrolled.enlisted standing).imp_right (·.2.2)
  obtain ⟨topics, queues, streams, next, capture, rfl⟩ := enrolled.eq
  refine ⟨settled.owned.enlist enrolled.enlisted, ?_, settled.accounts.enlist old new,
    settled.classic.enlist new enrolled.kept, settled.leased.enlist old new, enrolled.declared, ?_,
    settled.grouped.extend fun _ _ stream standing => ⟨stream, old standing, Nat.le_refl _⟩⟩
  · intro slot stream standing
    rcases new standing with before | empty
    · exact settled.logs before
    · exact empty ▸ empty_streamWell
  · intro key binding listed
    obtain ⟨fields, exchange, queue⟩ := settled.bound key binding listed
    refine ⟨fields, exchange, ?_⟩
    rw [mem_iff_exists] at queue ⊢
    obtain ⟨record, found⟩ := queue
    obtain ⟨after, has, _⟩ := enrolled.kept found
    exact ⟨after, has⟩

theorem Enrolled.advances (settled : Settled runtime orderly s) :
    Advances project nobody s s' := by
  obtain ⟨topics, queues, streams, next, capture, rfl⟩ := enrolled.eq
  refine ⟨{ Isolated.refl project s with
    topics := enrolled.topics, queues := enrolled.queues, shelf := ?_ },
    enrolled.enlisted.advanced, ?_, enrolled.origin⟩
  · intro slot apart
    have stays : fresh slot = false := by
      rw [Bool.eq_false_iff]
      exact fun new => apart (enrolled.within new)
    unfold shelf shelfOf
    rw [enrolled.enlisted.slots stays]
    cases found : slotStream s.topics s.queues slot with
    | none => rfl
    | some id => exact (enrolled.enlisted.still settled.owned found).2
  · intro id after has
    by_cases below : id ≤ s.nextStreamId
    · rw [enrolled.enlisted.old below] at has
      exact ⟨after, .inl has, .refl after⟩
    · have above := Nat.lt_of_not_le below
      obtain ⟨slot, new, found⟩ := enrolled.enlisted.new above has
      rw [(enrolled.enlisted.allocated new found).2.2, some.injEq] at has
      exact ⟨StreamState.empty, .inr ⟨above, rfl⟩, has ▸ .refl _⟩

theorem Enrolled.meets (settled : Settled runtime orderly s) :
    Settled runtime orderly s' ∧ Advances project nobody s s' :=
  ⟨enrolled.settled settled, enrolled.advances settled⟩

omit enrolled

theorem Enlisted.unchanged {topics topics' : ExtTreeMap Name Topic}
    {queues queues' : ExtTreeMap Name Queue}
    {streams : ExtTreeMap StreamId StreamState} {next : Nat} (owned : Owned topics queues streams next)
    (slots : ∀ slot, slotStream topics' queues' slot = slotStream topics queues slot) :
    Enlisted topics topics' queues queues' streams streams next next (fun _ => false) :=
  ⟨Nat.le_refl _, nofun, fun _ => slots _, nofun, nofun, fun _ => rfl,
    fun above has => absurd (owned.numbered has) (Nat.not_le.mpr above)⟩

theorem setTopicRetention_enrolled {topic : Topic} (settled : Settled runtime orderly s)
    (found : s.topics[(project, name)]? = some topic) (valid : retention.validate = .ok ()) :
    Enrolled project s (s.insertTopic (project, name) { topic with retention }) (fun _ => false) := by
  have slots : ∀ slot, slotStream (s.topics.insert (project, name) { topic with
      retention }) s.queues slot = slotStream s.topics s.queues slot := by
    intro slot
    cases slot with
    | queue other => rfl
    | partition other index =>
      simp only [slotStream, getElem?_insert]
      split
      next same => rw [← same, found]; rfl
      · rfl
  refine ⟨.unchanged settled.owned slots, rfl, by simp, fun apart =>
    getElem?_insert_apart Prod.fst apart, fun _ => rfl,
    fun present => ⟨_, present, rfl⟩, fun present => .inr ⟨_, present, rfl, rfl, rfl⟩, ?_,
      settled.declared.queue⟩
  intro other declared present
  rcases insert_eq_some.mp present with ⟨_, rfl⟩ | ⟨_, present⟩
  · obtain ⟨nonempty, bounded, _⟩ := settled.declared.topic found
    exact ⟨nonempty, bounded, valid⟩
  · exact settled.declared.topic present

theorem setQueueRetention_enrolled (settled : Settled runtime orderly s)
    (found : s.queues[(project, name)]? = some queue) (valid : retention.validate = .ok ()) :
    Enrolled project s (s.insertQueue (project, name) { queue with retention }) (fun _ => false) := by
  have slots : ∀ slot, slotStream s.topics (s.queues.insert (project, name) { queue with
      retention }) slot = slotStream s.topics s.queues slot := by
    intro slot
    cases slot with
    | partition other index => rfl
    | queue other =>
      simp only [slotStream, getElem?_insert]
      split
      next same => rw [← same, found]; rfl
      · rfl
  refine ⟨.unchanged settled.owned slots, rfl, by simp, fun _ => rfl,
    fun apart => getElem?_insert_apart Prod.fst apart, ?_, ?_, settled.declared.topic, ?_⟩
  · intro other record present
    change ∃ queue', (s.queues.insert _ _)[other]? = some queue' ∧ _
    rw [getElem?_insert]
    split
    next same =>
      rw [← same, found, some.injEq] at present
      exact ⟨_, rfl, present ▸ rfl⟩
    · exact ⟨record, present, rfl⟩
  · intro other after present
    rcases insert_eq_some.mp present with ⟨rfl, rfl⟩ | ⟨_, present⟩
    · exact .inr ⟨queue, found, rfl, rfl, rfl⟩
    · exact .inr ⟨after, present, rfl, rfl, rfl⟩
  · intro other record present
    rcases insert_eq_some.mp present with ⟨_, rfl⟩ | ⟨_, present⟩
    · exact valid
    · exact settled.declared.queue present

end Enroll

section Allocate

variable {orderly : Prop}

structure Opened (s s' : BrokerStateMachine) (ids : List StreamId) : Prop where
  frame : s' = { s with streams := s'.streams, nextStreamId := s'.nextStreamId, capture := s'.capture }
  cursor : s'.nextStreamId = s.nextStreamId + ids.length
  numbered : ids = List.range' (s.nextStreamId + 1) ids.length
  streams : ∀ id : StreamId, s'.streams[id]? = if id ∈ ids then some StreamState.empty
    else s.streams[id]?

theorem allocateStream_meets (s : BrokerStateMachine) :
    Meets s.allocateStream (fun allocated => Opened s allocated.1 [allocated.2]) Overflow := by
  unfold allocateStream
  refine meets_checkedSum (by simp [overflowErrors]) fun _ => ?_
  refine ⟨rfl, rfl, rfl, ?_⟩
  intro other
  change (s.streams.insert (s.nextStreamId + 1) StreamState.empty)[other]? = _
  rw [getElem?_insert]
  simp only [List.mem_singleton, eq_comm]

theorem Opened.cons {middle : BrokerStateMachine} {first : StreamId} {final : BrokerStateMachine}
    {rest : List StreamId} (one : Opened s middle [first]) (more : Opened middle final rest) :
    Opened s final (first :: rest) := by
  have cursor : middle.nextStreamId = s.nextStreamId + 1 := one.cursor
  have single : [first] = [s.nextStreamId + 1] := one.numbered
  rw [List.cons.injEq] at single
  refine ⟨?_, ?_, ?_, ?_⟩
  · rw [more.frame, one.frame]
  · rw [more.cursor, cursor, List.length_cons]
    omega
  · rw [List.length_cons, List.range'_succ, ← single.1, single.1, ← cursor]
    exact congrArg _ more.numbered
  · intro id
    rw [more.streams id, one.streams id]
    by_cases late : id ∈ rest
    · simp [late]
    · simp [late]

theorem allocateStreams_meets (count : Nat) (s : BrokerStateMachine) : Meets (allocateStreams count s)
      (fun allocated => allocated.2.length = count ∧ Opened s allocated.1 allocated.2) Overflow := by
  induction count generalizing s with
  | zero => exact ⟨rfl, rfl, rfl, rfl, fun _ => by simp⟩
  | succ count ih =>
    apply Meets.bind (allocateStream_meets s)
    intro ⟨middle, first⟩ one
    apply Meets.bind (ih middle)
    intro ⟨final, rest⟩ ⟨length, more⟩
    exact ⟨congrArg Nat.succ length, one.cons more⟩

variable {id : StreamId} {s' : BrokerStateMachine} {ids : List StreamId} (opened : Opened s s' ids)
include opened

theorem Opened.eq : ∃ streams next capture, s' = { s with streams, nextStreamId := next, capture } :=
  ⟨_, _, _, opened.frame⟩

theorem Opened.bounds : id ∈ ids ↔ s.nextStreamId < id ∧ id ≤ s'.nextStreamId := by
  have cursor := opened.cursor
  have listed : id ∈ ids ↔ id ∈ List.range' (s.nextStreamId + 1) ids.length := by rw [← opened.numbered]
  rw [listed, List.mem_range'_1, cursor, Nat.add_right_comm, Nat.succ_le_iff]
  exact and_congr_right fun _ => Nat.lt_succ_iff

theorem Opened.nodup : ids.Nodup := by
  rw [opened.numbered]
  exact List.nodup_range'

theorem Opened.old (below : id ≤ s.nextStreamId) : s'.streams[id]? = s.streams[id]? := by
  rw [opened.streams id, if_neg]
  exact fun mem => absurd (opened.bounds.mp mem).1 (Nat.not_lt.mpr below)

theorem Opened.new {stream : StreamState} (owned : Owned s.topics s.queues s.streams s.nextStreamId)
    (above : s.nextStreamId < id) (has : s'.streams[id]? = some stream) : id ∈ ids := by
  rw [opened.streams id] at has
  split at has
  next mem => exact mem
  · exact absurd (owned.numbered has) (Nat.not_le.mpr above)

theorem Opened.enrolTopic (settled : Settled runtime orderly s)
    (vacant : s.topics[(project, name)]? = none) (nonempty : ids ≠ []) (bounded : ids.length ≤ 4096)
    (valid : retention.validate = .ok ()) :
    Enrolled project s (s'.insertTopic (project, name) { partitions := ids, retention })
      (fun slot => match slot with
        | .partition other _ => decide (other = (project, name))
        | .queue _ => false) := by
  obtain ⟨streams, next, capture, rfl⟩ := opened.eq
  have located : ∀ index, slotStream (s.topics.insert (project,
      name) { partitions := ids, retention }) s.queues
      (.partition (project, name) index) = ids[index]? := by
    intro index
    simp [slotStream]
  refine ⟨⟨Nat.le.intro opened.cursor.symm, ?_, ?_, ?_, ?_, fun below => opened.old below, ?_⟩, rfl, ?_,
    fun apart => getElem?_insert_apart Prod.fst apart, fun _ => rfl, fun present => ⟨_, present, rfl⟩,
    fun present => .inr ⟨_, present, rfl, rfl, rfl⟩, ?_, settled.declared.queue⟩
  · intro slot new
    cases slot with
    | queue other => cases new
    | partition other index =>
      rw [of_decide_eq_true new]
      simp [slotStream, vacant]
  · intro slot old
    cases slot with
    | queue other => rfl
    | partition other index =>
      exact congrArg (bind · _) (getElem?_insert_apart id (of_decide_eq_false old))
  · intro slot id new found
    cases slot with
    | queue other => cases new
    | partition other index =>
      rw [of_decide_eq_true new] at found
      have mem := List.mem_of_getElem? ((located index).symm.trans found)
      obtain ⟨above, below⟩ := opened.bounds.mp mem
      exact ⟨above, below, (opened.streams id).trans (if_pos mem)⟩
  · intro first second id newFirst newSecond foundFirst foundSecond
    cases first with
    | queue other => cases newFirst
    | partition other index =>
      cases second with
      | queue other => cases newSecond
      | partition another pos =>
        rw [of_decide_eq_true newFirst] at foundFirst ⊢
        rw [of_decide_eq_true newSecond] at foundSecond ⊢
        have here := (located index).symm.trans foundFirst
        have there := (located pos).symm.trans foundSecond
        rw [(List.getElem?_inj (List.getElem?_eq_some_iff.mp here).1 opened.nodup).mp
          (here.trans there.symm)]
  · intro id stream above present
    obtain ⟨index, found⟩ := List.mem_iff_getElem?.mp (opened.new settled.owned above present)
    exact ⟨.partition (project, name) index, decide_eq_true rfl, (located index).trans found⟩
  · intro slot new
    cases slot with
    | queue other => cases new
    | partition other index =>
      rw [of_decide_eq_true new]
      rfl
  · intro other topic present
    rcases insert_eq_some.mp present with ⟨_, rfl⟩ | ⟨_, present⟩
    · exact ⟨nonempty, bounded, valid⟩
    · exact settled.declared.topic present

omit opened

theorem Opened.enrolQueue (opened : Opened s s' [queue.stream]) (settled : Settled runtime orderly s)
    (vacant : s.queues[(project, name)]? = none) (valid : queue.retention.validate = .ok ()) :
    Enrolled project s (s'.insertQueue (project, name) queue)
      (fun slot => decide (slot = .queue (project, name))) := by
  obtain ⟨streams, next, capture, rfl⟩ := opened.eq
  have located : slotStream s.topics (s.queues.insert (project, name) queue) (.queue (project, name)) =
      some queue.stream := by
    simp [slotStream]
  have bounds := opened.bounds.mp (List.mem_singleton.mpr rfl)
  refine ⟨⟨?_, ?_, ?_, ?_, ?_, fun below => opened.old below, ?_⟩, rfl, ?_, fun _ => rfl,
    fun apart => getElem?_insert_apart Prod.fst apart, ?_, ?_, settled.declared.topic, ?_⟩
  · exact Nat.le_of_lt (Nat.lt_of_lt_of_le bounds.1 bounds.2)
  · intro slot new
    rw [of_decide_eq_true new]
    simp [slotStream, vacant]
  · intro slot old
    cases slot with
    | partition other index => rfl
    | queue other =>
      refine congrArg (Option.map _) (getElem?_insert_apart id ?_)
      rintro rfl
      exact of_decide_eq_false old rfl
  · intro slot id new found
    rw [of_decide_eq_true new] at found
    obtain rfl := some.inj (located.symm.trans found)
    exact ⟨bounds.1, bounds.2, (opened.streams _).trans (by simp)⟩
  · intro first second id newFirst newSecond _ _
    exact (of_decide_eq_true newFirst).trans (of_decide_eq_true newSecond).symm
  · intro id stream above present
    obtain rfl := List.mem_singleton.mp (opened.new settled.owned above present)
    exact ⟨.queue (project, name), decide_eq_true rfl, located⟩
  · intro slot new
    rw [of_decide_eq_true new]
    rfl
  · intro other record present
    refine ⟨record, (getElem?_insert_apart id ?_).trans present, rfl⟩
    rintro rfl
    cases vacant.symm.trans present
  · intro other after present
    rcases insert_eq_some.mp present with ⟨_, rfl⟩ | ⟨_, present⟩
    · exact .inl bounds.1
    · exact .inr ⟨after, present, rfl, rfl, rfl⟩
  · intro other record present
    rcases insert_eq_some.mp present with ⟨_, rfl⟩ | ⟨_, present⟩
    · exact valid
    · exact settled.declared.queue present

end Allocate

section Declare

variable {durable passive : Bool} {runtime' : Runtime} {orderly : Prop}
  (settled : Settled runtime orderly s)

include settled

theorem createTopic_meets {partitions : Nat}
    (accepted : s.validateCommand (.createTopic project name partitions retention) = .ok ()) :
    Meets (s.createTopic project name partitions retention)
      (Keeps runtime orderly project s) Overflow := by
  obtain ⟨_, named, accepted⟩ := bind_eq_ok.mp accepted
  obtain ⟨_, valid, accepted⟩ := bind_eq_ok.mp accepted
  obtain ⟨_, counted, accepted⟩ := bind_eq_ok.mp accepted
  unfold createTopic
  apply Meets.passed named
  apply Meets.passed valid
  apply Meets.passed counted
  cases found : s.topics[(project, name)]? with
  | some existing =>
    simp only [found] at accepted
    apply Meets.passed accepted
    exact ⟨settled, .refl project s⟩
  | none =>
    rw [require_eq_ok, Bool.and_eq_true, bne_iff_ne, decide_eq_true_eq] at counted
    apply Meets.bind (allocateStreams_meets partitions s)
    intro ⟨middle, ids⟩ ⟨(length : ids.length = partitions), opened⟩
    have nonempty : ids ≠ [] := by
      rintro rfl
      exact counted.1 length.symm
    exact Enrolled.meets (Opened.enrolTopic opened settled found nonempty (length ▸ counted.2)
      valid) settled

theorem createQueue_meets {kind : QueueKind}
    {deadLetterExchange deadLetterRoutingKey : Option String} {exclusiveOwner : Option Uuid}
    {autoDelete : Bool}
    (accepted : s.validateCommand (.createQueue project name kind durable passive deadLetterExchange
      deadLetterRoutingKey retention exclusiveOwner autoDelete) = .ok ()) :
    Meets (s.createQueue project name kind durable passive deadLetterExchange
        deadLetterRoutingKey retention exclusiveOwner autoDelete)
          (Keeps runtime orderly project s) Overflow := by
  obtain ⟨_, named, accepted⟩ := bind_eq_ok.mp accepted
  obtain ⟨_, valid, accepted⟩ := bind_eq_ok.mp accepted
  obtain ⟨_, compatible, lettered⟩ := bind_eq_ok.mp accepted
  unfold validateQueueName at compatible
  unfold createQueue
  apply Meets.passed named
  apply Meets.passed valid
  cases found : s.queues[(project, name)]? with
  | some existing =>
    simp only [found] at compatible
    apply Meets.passed compatible
    exact ⟨settled, .refl project s⟩
  | none =>
    simp only [found] at compatible
    obtain ⟨_, active, _⟩ := bind_eq_ok.mp compatible
    apply Meets.passed active
    apply Meets.passed lettered
    apply Meets.bind (allocateStream_meets s)
    intro ⟨middle, stream⟩ opened
    exact Enrolled.meets (Opened.enrolQueue opened settled found valid) settled

theorem setTopicRetention_meets
    (accepted : s.validateCommand (.setTopicRetention project name retention) = .ok ()) :
    Meets (dispatch runtime' s (.setTopicRetention project name retention))
      (Keeps runtime orderly project s) Overflow := by
  obtain ⟨_, valid, has⟩ := bind_eq_ok.mp accepted
  rw [require_eq_ok, contains_iff_exists] at has
  obtain ⟨topic, found⟩ := has
  apply Meets.passed valid
  apply Meets.passed (orElse_eq_ok.mpr found)
  exact (setTopicRetention_enrolled settled found valid).meets settled

theorem setQueueRetention_meets
    (accepted : s.validateCommand (.setQueueRetention project name retention) = .ok ()) :
    Meets (dispatch runtime' s (.setQueueRetention project name retention))
      (Keeps runtime orderly project s) Overflow := by
  obtain ⟨_, valid, has⟩ := bind_eq_ok.mp accepted
  rw [require_eq_ok, contains_iff_exists] at has
  obtain ⟨queue, found⟩ := has
  apply Meets.passed valid
  apply Meets.passed (orElse_eq_ok.mpr found)
  exact (setQueueRetention_enrolled settled found valid).meets settled

theorem createExchange_meets {kind : AmqpExchangeKind}
    (valid : s.validateCommand (.createExchange project name kind durable passive) = .ok ()) :
    Meets (s.createExchange project name kind durable passive)
      (Keeps runtime orderly project s) Overflow := by
  obtain ⟨_, named, valid⟩ := bind_eq_ok.mp valid
  unfold createExchange
  apply Meets.passed named
  cases found : s.exchanges[(project, name)]? with
  | some existing =>
    simp only [found] at valid
    apply Meets.passed valid
    exact ⟨settled, .refl project s⟩
  | none =>
    simp only [found] at valid
    apply Meets.passed valid
    refine ⟨{ settled with bound := ?_ }, { Isolated.refl project s with exchanges := ?_ },
      .of_same rfl rfl rfl⟩
    · intro key binding listed
      obtain ⟨fields, exchange, queue⟩ := settled.bound key binding listed
      exact ⟨fields, ExtTreeMap.mem_insert.mpr (.inr exchange), queue⟩
    · exact fun apart => getElem?_insert_apart Prod.fst apart

end Declare

end IronGraph.Broker
