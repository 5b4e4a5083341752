import IronGraph.Broker.GroupCommands

/-!
The drop of a project: all of its rows leave with the streams and the payloads that were only its own.
-/

namespace IronGraph.Broker

open Std Outcome OrderedMap BrokerStateMachine ExtTreeMap ExtTreeSet

section Rows

theorem foldl_removeRows {κ ν : Type} [Ord κ] [TransOrd κ]
    (remove : BrokerStateMachine → κ → BrokerStateMachine)
    (table : BrokerStateMachine → ExtTreeMap κ ν)
    (written : BrokerStateMachine → ExtTreeMap κ ν → List Event → BrokerStateMachine) (keys : List κ)
    (s : BrokerStateMachine)
    (step : ∀ s key, ∃ capture, remove s key = written s ((table s).erase key) capture := by
  exact fun _ _ => ⟨_, rfl⟩)
    (reads : ∀ s rows capture, table (written s rows capture) = rows := by intros; rfl)
    (again : ∀ s rows capture rows' capture',
      written (written s rows capture) rows' capture' = written s rows' capture' := by intros; rfl)
    (same : ∀ s, written s (table s) s.capture = s := by intros; rfl) :
    ∃ capture, keys.foldl remove s = written s (eraseKeys (table s) keys) capture := by
  induction keys generalizing s with
  | nil => exact ⟨s.capture, (same s).symm⟩
  | cons key rest ih =>
    obtain ⟨first, removed⟩ := step s key
    obtain ⟨capture, continued⟩ := ih (remove s key)
    refine ⟨capture, continued.trans ?_⟩
    rw [removed, reads, again]
    rfl

end Rows

structure Evicted (project : ProjectId) (s bare : BrokerStateMachine) : Prop where
  topics : ∀ name : Name, bare.topics[name]? = if name.1 = project then none else s.topics[name]?
  exchanges : ∀ name : Name, bare.exchanges[name]? = if name.1 = project then none
    else s.exchanges[name]?
  queues : ∀ name : Name, bare.queues[name]? = if name.1 = project then none else s.queues[name]?
  bindings : ∀ key : BindingKey, bare.bindings[key]? = if key.1 = project then none
    else s.bindings[key]?
  groups : ∀ name : Name, bare.groups[name]? = if name.1 = project then none else s.groups[name]?
  leases : ∀ key : ProjectId × Uuid,
    bare.deliveryLeases[key]? = if key.1 = project then none else s.deliveryLeases[key]?
  consumers : ∀ name : Name, bare.queueConsumers[name]? = if name.1 = project then none
    else s.queueConsumers[name]?
  streams : ∀ id : StreamId, bare.streams[id]? = if id ∈ s.projectStreams project then none
    else s.streams[id]?
  cursor : bare.nextStreamId = s.nextStreamId
  ledger : bare.ledger = s.ledger

section Evict

variable {orderly : Prop} {s bare : BrokerStateMachine} {project : ProjectId} {runtime : Runtime}

def gone (project : ProjectId) (slot : Slot) : Bool := decide (slot.project = project)

theorem Evicted.withdrawn (evicted : Evicted project s bare) :
    Withdrawn s.topics bare.topics s.queues bare.queues s.streams bare.streams (gone project) := by
  refine ⟨?_, ?_, ?_⟩
  · intro slot
    by_cases within : slot.project = project
    · cases slot with
      | partition name index =>
        simp [slotStream, evicted.topics, gone, show name.1 = project from within, within]
      | queue name => simp [slotStream, evicted.queues, gone, show name.1 = project from within, within]
    · cases slot with
      | partition name index =>
        simp [slotStream, evicted.topics, gone, show ¬ name.1 = project from within, within]
      | queue name =>
        simp [slotStream, evicted.queues, gone, show ¬ name.1 = project from within, within]
  · intro slot id leaves found
    rw [evicted.streams, if_pos (mem_projectStreams.mpr ⟨slot, of_decide_eq_true leaves, found⟩)]
  · intro id elsewhere
    rw [evicted.streams, if_neg]
    intro mem
    obtain ⟨slot, within, found⟩ := mem_projectStreams.mp mem
    exact elsewhere slot (decide_eq_true within) found

section

variable (evicted : Evicted project s bare) (settled : Settled runtime orderly s)

include evicted settled

theorem Evicted.shelf (slot : Slot) :
    bare.shelf slot = bif gone project slot then none else s.shelf slot :=
  settled.owned.shelfOf_withdraw evicted.withdrawn slot

theorem Evicted.shelf_eq_some {slot : Slot} {stream : StreamState} :
    bare.shelf slot = some stream ↔ slot.project ≠ project ∧ s.shelf slot = some stream := by
  rw [evicted.shelf settled, gone]
  by_cases within : slot.project = project
  · simp [within]
  · simp [within]

theorem Evicted.leased : Leased bare.shelf bare.deliveryLeases (fun _ => False) := by
  have mem : ∀ key : ProjectId × Uuid, key ∈ bare.deliveryLeases ↔
      key.1 ≠ project ∧ key ∈ s.deliveryLeases := by
    intro key
    rw [mem_iff_isSome_getElem?, mem_iff_isSome_getElem?, evicted.leases]
    split
    next within => simp [within]
    next apart => simp [apart]
  refine ⟨?_, ?_⟩
  · rintro other owner ⟨slot, stream, within, standing, held⟩
    obtain ⟨apart, before⟩ := (evicted.shelf_eq_some settled).mp standing
    exact (mem _).mpr ⟨within ▸ apart, settled.leased.lease ⟨slot, stream, within, before, held⟩⟩
  · intro other owner has
    obtain ⟨apart, before⟩ := (mem _).mp has
    rcases settled.leased.holder before with ⟨slot, stream, within, standing, held⟩ | outlived
    · exact .inl ⟨slot, stream, within, (evicted.shelf_eq_some settled).mpr ⟨within ▸ apart,
        standing⟩, held⟩
    · exact .inr outlived

theorem Evicted.invariant : Invariant runtime orderly bare
      (fun msg => ∃ slot : Slot, slot.project = project ∧ Refers s.shelf slot msg) (fun _ => 0)
      (fun _ => False) := by
  have declared : Declared bare.topics bare.queues := by
    constructor
    · intro name topic found
      rw [evicted.topics] at found
      split at found
      · cases found
      · exact settled.declared.topic found
    · intro name queue found
      rw [evicted.queues] at found
      split at found
      · cases found
      · exact settled.declared.queue found
  have bound : Bound bare.bindings bare.exchanges bare.queues := by
    intro key binding listed
    rw [evicted.bindings] at listed
    split at listed
    · cases listed
    next apart =>
      obtain ⟨fields, exchange, queue⟩ := settled.bound key binding listed
      rw [mem_iff_isSome_getElem?] at exchange queue
      rw [mem_iff_isSome_getElem?, mem_iff_isSome_getElem?, evicted.exchanges, evicted.queues,
        if_neg apart, if_neg apart]
      exact ⟨fields, exchange, queue⟩
  have grouped : Grouped orderly bare.groups bare.shelf := by
    intro name group found
    rw [evicted.groups] at found
    split at found
    · cases found
    next apart =>
      refine { settled.grouped name group found with committed := ?_ }
      intro topic part offset committed
      obtain ⟨nonnegative, stream, standing, reached⟩ :=
        (settled.grouped name group found).committed committed
      exact ⟨nonnegative, stream, (evicted.shelf_eq_some settled).mpr ⟨apart, standing⟩, reached⟩
  refine (settled.withdraw bare evicted.withdrawn evicted.cursor evicted.ledger ?_
    declared bound grouped (evicted.leased settled)).weaken ?_ fun _ outlived => outlived
  · intro name queue stays found
    rw [evicted.queues, if_neg (show ¬ name.1 = project from of_decide_eq_false stays)]
    exact found
  · rintro msg (floats | ⟨slot, leaves, referred⟩)
    · exact floats.elim
    · exact ⟨slot, of_decide_eq_true leaves, referred⟩

theorem Evicted.advances : Advances project nobody s bare := by
  refine ⟨⟨fun apart => (evicted.topics _).trans (if_neg apart),
    fun apart => (evicted.exchanges _).trans (if_neg apart),
    fun apart => (evicted.queues _).trans (if_neg apart), fun apart =>
      (evicted.bindings _).trans (if_neg apart),
    fun apart => (evicted.groups _).trans (if_neg apart), fun apart =>
      (evicted.leases _).trans (if_neg apart),
    fun apart => (evicted.consumers _).trans (if_neg apart), ?_, ?_⟩,
      Nat.le_of_eq evicted.cursor.symm, ?_, ?_⟩
  · intro slot apart
    rw [evicted.shelf settled, gone, decide_eq_false apart]
    rfl
  · intro msg other row _
    rw [evicted.ledger]
  · intro id after has
    rw [evicted.streams] at has
    split at has
    · cases has
    · exact ⟨after, .inl has, .refl after⟩
  · intro name after found
    rw [evicted.queues] at found
    split at found
    · cases found
    · exact .inr ⟨after, found, rfl, rfl, rfl⟩

end

theorem removeProject_evicted (s : BrokerStateMachine) (project : ProjectId) :
    ∃ bare, Evicted project s bare ∧ s.removeProject project =
      ((ofList (s.streamMessages (ofList (s.projectStreams project) : ExtTreeSet StreamId).toList) :
        ExtTreeSet MessageId).toList).foldlM removePayload bare := by
  obtain ⟨_, topics⟩ := foldl_removeRows removeTopic (·.topics)
    (fun s topics capture => { s with topics, capture })
    (s.topics.keys.filter fun name => name.1 == project) s
  generalize first : (s.topics.keys.filter fun name => name.1 == project).foldl removeTopic s = s₁
    at topics
  obtain ⟨_, queues⟩ := foldl_removeRows removeQueue (·.queues)
    (fun s queues capture => { s with queues, capture })
    (s₁.queues.keys.filter fun name => name.1 == project) s₁
  generalize second : (s₁.queues.keys.filter fun name => name.1 == project).foldl removeQueue s₁ = s₂
    at queues
  obtain ⟨_, exchanges⟩ := foldl_removeRows removeExchange (·.exchanges)
    (fun s exchanges capture => { s with exchanges, capture })
    (s₂.exchanges.keys.filter fun name => name.1 == project) s₂
  generalize third : (s₂.exchanges.keys.filter fun name => name.1 == project).foldl
    removeExchange s₂ = s₃ at exchanges
  generalize bound : s₃.retainBindings (fun key _ => key.1 != project) = s₄
  obtain ⟨_, groups⟩ := foldl_removeRows removeGroup (·.groups)
    (fun s groups capture => { s with groups, capture })
    (s₄.groups.keys.filter fun name => name.1 == project) s₄
  generalize fifth : (s₄.groups.keys.filter fun name => name.1 == project).foldl removeGroup s₄ = s₅
    at groups
  obtain ⟨_, deliveryLeases⟩ := foldl_removeRows removeLease (·.deliveryLeases)
    (fun s deliveryLeases capture => { s with deliveryLeases, capture })
    (s₅.deliveryLeases.keys.filter fun key => key.1 == project) s₅
  generalize sixth : (s₅.deliveryLeases.keys.filter fun key => key.1 == project).foldl
    removeLease s₅ = s₆ at deliveryLeases
  obtain ⟨_, queueConsumers⟩ := foldl_removeRows removeConsumers (·.queueConsumers)
    (fun s queueConsumers capture => { s with queueConsumers, capture })
    (s₆.queueConsumers.keys.filter fun name => name.1 == project) s₆
  generalize seventh : (s₆.queueConsumers.keys.filter fun name => name.1 == project).foldl
    removeConsumers s₆ = s₇ at queueConsumers
  obtain ⟨_, streams⟩ := foldl_removeRows removeStream (·.streams)
    (fun s streams capture => { s with streams, capture })
    ((ofList (s.projectStreams project) : ExtTreeSet StreamId).toList) s₇
  generalize eighth : (ofList (s.projectStreams project) : ExtTreeSet StreamId).toList.foldl
    removeStream s₇ = s₈ at streams
  have msgs : s₇.streams = s.streams := by
    rw [queueConsumers, deliveryLeases, groups, ← bound, retainBindings, exchanges, queues, topics]
  have frame : s₈ = { s with
      topics := eraseKeys s.topics (s.topics.keys.filter fun name => name.1 == project)
      queues := eraseKeys s.queues (s.queues.keys.filter fun name => name.1 == project)
      exchanges := eraseKeys s.exchanges (s.exchanges.keys.filter fun name => name.1 == project)
      bindings := s.bindings.filter fun key _ => key.1 != project
      groups := eraseKeys s.groups (s.groups.keys.filter fun name => name.1 == project)
      deliveryLeases := eraseKeys s.deliveryLeases (s.deliveryLeases.keys.filter fun key =>
        key.1 == project)
      queueConsumers := eraseKeys s.queueConsumers (s.queueConsumers.keys.filter fun name =>
        name.1 == project)
      streams := eraseKeys s.streams (ofList (s.projectStreams project) : ExtTreeSet StreamId).toList
      capture := s₈.capture } := by
    rw [streams, queueConsumers, deliveryLeases, groups, ← bound, exchanges, queues, topics]
    rfl
  refine ⟨s₈, ⟨?_, ?_, ?_, fun key => ?_, ?_, ?_, ?_, fun id => ?_, by rw [frame],
    by rw [frame]; rfl⟩, ?_⟩
  case refine_4 =>
    rw [frame, getElem?_filter']
    cases s.bindings[key]? with
    | none => simp
    | some binding => simp [Option.filter_some, ite_not]
  case refine_8 =>
    rw [frame]
    simp only [getElem?_eraseKeys, ExtTreeSet.mem_toList, ExtTreeSet.mem_ofList, List.contains_iff_mem]
  case refine_9 =>
    unfold removeProject
    simp only [first, second, third, bound, fifth, sixth, seventh, eighth, streamMessages, msgs]
  all_goals
    intro key
    rw [frame]
    simp only [getElem?_eraseKeys_filter, beq_iff_eq]

theorem removeProject_meets {fail : Error → Prop} (settled : Settled runtime orderly s)
    (project : ProjectId) :
    Meets (s.removeProject project)
      (fun s' => Settled runtime orderly s' ∧ Advances project nobody s s') fail := by
  obtain ⟨bare, evicted, removed⟩ := removeProject_evicted s project
  rw [removed]
  have listed : ∀ msg, msg ∈ (ofList (s.streamMessages
      (ofList (s.projectStreams project) : ExtTreeSet StreamId).toList) : ExtTreeSet MessageId).toList ↔
        ∃ slot : Slot, slot.project = project ∧ Refers s.shelf slot msg := by
    intro msg
    rw [ExtTreeSet.mem_toList, ExtTreeSet.mem_ofList, List.contains_iff_mem, mem_streamMessages]
    simp only [ExtTreeSet.mem_toList, ExtTreeSet.mem_ofList, List.contains_iff_mem, mem_projectStreams]
    constructor
    · rintro ⟨id, ⟨slot, within, located⟩, stream, has, inside⟩
      exact ⟨slot, within, stream, shelfOf_eq_some.mpr ⟨id, located, has⟩, inside⟩
    · rintro ⟨slot, within, stream, standing, inside⟩
      obtain ⟨id, located, has⟩ := shelfOf_eq_some.mp standing
      exact ⟨id, ⟨slot, within, located⟩, stream, has, inside⟩
  generalize (ofList (s.streamMessages (ofList (s.projectStreams project) :
    ExtTreeSet StreamId).toList) : ExtTreeSet MessageId).toList = msgs at listed ⊢
  have charged : ∀ msg ∈ msgs, ∃ bytes, bare.ledger.billed msg = some (project, bytes) := by
    intro msg mem
    obtain ⟨slot, rfl, referred⟩ := (listed msg).mp mem
    rw [evicted.ledger]
    exact settled.accounts.backed referred
  have own : ∀ msg ∈ msgs, ∀ owner row, bare.ledger.entry msg = some (owner, row) →
      owner = project := by
    intro msg mem owner row entry
    obtain ⟨bytes, billed⟩ := charged msg mem
    exact Ledger.entry_billed billed entry
  refine Meets.imp (removePayloads_meets msgs (evicted.invariant settled) ?_ own) ?_
  · intro msg mem slot referred
    obtain ⟨bytes, billed⟩ := charged msg mem
    obtain ⟨_, backed⟩ := (evicted.invariant settled).accounts.backed referred
    rw [billed, Option.some.injEq, Prod.mk.injEq] at backed
    obtain ⟨stream, standing, _⟩ := referred
    exact ((evicted.shelf_eq_some settled).mp standing).1 backed.1.symm
  · rintro final ⟨_, advances, after⟩
    refine ⟨after.weaken ?_ fun _ outlived => outlived, (evicted.advances settled).trans advances⟩
    rintro msg ⟨floats, kept⟩
    exact kept ((listed msg).mpr floats)

end Evict

end IronGraph.Broker
