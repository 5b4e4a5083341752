import IronGraph.Broker.Evolution

/-!
What leaves the broker: payloads nothing refers to any more, leases nobody uses, and queues with their
streams.
-/

namespace IronGraph.Broker

open Std Outcome OrderedMap BrokerStateMachine List Ledger

variable {project : ProjectId} {msg : MessageId}

section Queries

variable {s : BrokerStateMachine}

theorem mem_projectStreams {id : StreamId} : id ∈ s.projectStreams project ↔
      ∃ slot : Slot, slot.project = project ∧ slotStream s.topics s.queues slot = some id := by
  simp only [projectStreams, mem_append, mem_flatMap, mem_map, mem_filter,
    and_assoc, exists_mem_toList, beq_iff_eq]
  constructor
  · rintro (⟨name, topic, found, within, mem⟩ | ⟨name, queue, found, within, same⟩)
    · obtain ⟨index, here⟩ := mem_iff_getElem?.mp mem
      exact ⟨.partition name index, within, by simp [slotStream, found, here]⟩
    · exact ⟨.queue name, within, by simp [slotStream, found, same]⟩
  · rintro ⟨slot, within, here⟩
    cases slot with
    | partition name index =>
      simp only [slotStream, Option.bind_eq_some_iff] at here
      obtain ⟨topic, found, present⟩ := here
      exact .inl ⟨name, topic, found, within, mem_of_getElem? present⟩
    | queue name =>
      simp only [slotStream, Option.map_eq_some_iff] at here
      obtain ⟨queue, found, same⟩ := here
      exact .inr ⟨name, queue, found, within, same⟩

theorem stillLive_iff :
    s.stillLive project msg = true ↔ ∃ slot : Slot, slot.project = project ∧
    Refers s.shelf slot msg := by
  simp only [stillLive, any_eq_true, Option.any_eq_true, beq_iff_eq]
  constructor
  · rintro ⟨id, mem, stream, has, ref, inside, same⟩
    obtain ⟨slot, within, found⟩ := mem_projectStreams.mp mem
    exact ⟨slot, within, stream, shelfOf_eq_some.mpr ⟨id, found, has⟩, mem_map.mpr ⟨ref, inside, same⟩⟩
  · rintro ⟨slot, within, stream, standing, mem⟩
    obtain ⟨id, found, has⟩ := shelfOf_eq_some.mp standing
    obtain ⟨ref, inside, same⟩ := mem_map.mp mem
    exact ⟨id, mem_projectStreams.mpr ⟨slot, within, found⟩, stream, has, ref, inside, same⟩

theorem mem_classicStreams {id : StreamId} :
    id ∈ s.classicStreams project ↔ ∃ (name : Name) (queue : Queue), name.1 = project ∧
      s.queues[name]? = some queue ∧ queue.kind = .classic ∧ queue.stream = id := by
  simp only [classicStreams, mem_map, mem_filter, and_assoc, exists_mem_toList,
    Bool.and_eq_true, beq_iff_eq]
  constructor
  · rintro ⟨name, queue, found, within, kind, same⟩
    exact ⟨name, queue, within, found, kind, same⟩
  · rintro ⟨name, queue, within, found, kind, same⟩
    exact ⟨name, queue, found, within, kind, same⟩

theorem ownerHasUnacked_iff (classic : ClassicHeld s.shelf s.queues) {owner : Uuid} :
    s.ownerHasUnacked project owner = true ↔ Holds s.shelf project owner := by
  simp only [ownerHasUnacked, any_eq_true, Option.any_eq_true]
  constructor
  · rintro ⟨id, mem, stream, has, held⟩
    obtain ⟨name, queue, within, found, _, same⟩ := mem_classicStreams.mp mem
    refine ⟨.queue name, stream, within, shelfOf_eq_some.mpr ⟨id, ?_, has⟩, held⟩
    simp [slotStream, found, same]
  · rintro ⟨slot, stream, within, standing, held⟩
    obtain ⟨name, queue, here, found, kind⟩ := classic _ _ _ standing held
    subst here
    obtain ⟨id, located, has⟩ := shelfOf_eq_some.mp standing
    rw [slotStream, found, Option.map_some, Option.some.injEq] at located
    exact ⟨id, mem_classicStreams.mpr ⟨name, queue, within, found, kind, located⟩, stream, has, held⟩

end Queries

def Reledgered (s s' : BrokerStateMachine) : Prop := s' = { s with
    payloads := s'.payloads
    payloadSegments := s'.payloadSegments
    nextMessageId := s'.nextMessageId
    nextPayloadSegmentId := s'.nextPayloadSegmentId
    capture := s'.capture }

section Reclaim

variable {orderly : Prop} {s : BrokerStateMachine} {s' : BrokerStateMachine}
  {row : StoredPayloadRecord × BrokerPayloadSegment} {runtime : Runtime} {missing : Nat → Nat}
  {stale : ProjectId × Uuid → Prop} {floating : MessageId → Prop} {fail : Error → Prop}
  {stream : StreamState} {queue : Queue} {name : String}

theorem Reledgered.trans {first second third : BrokerStateMachine}
    (before : Reledgered first second) (after : Reledgered second third) :
    Reledgered first third := by
  unfold Reledgered at *
  rw [after, before]

theorem Reledgered.advances (frame : Reledgered s s')
    (payloads :
      ∀ {msg : MessageId} {other : ProjectId} {row : StoredPayloadRecord × BrokerPayloadSegment},
      other ≠ project → (s'.ledger.entry msg = some (other, row) ↔
        s.ledger.entry msg = some (other, row))) :
    Advances project nobody s s' := by
  refine ⟨⟨?_, ?_, ?_, ?_, ?_, ?_, ?_, ?_, payloads⟩, .of_same ?_ ?_ ?_⟩
  all_goals intros; rw [frame]
  rfl

theorem Ledger.entry_release {owner : BrokerPayloadSegment} {ledger : Ledger}
    {payload : StoredPayloadRecord} (owned : ledger.entry msg = some (project, payload, owner))
    {found : MessageId} {other : ProjectId} (apart : other ≠ project) : ({ ledger with
        payloads := ledger.payloads.erase msg
        segments := Ledger.release ledger.segments payload.segment owner } : Ledger).entry found =
        some (other, row) ↔ ledger.entry found = some (other, row) := by
  obtain ⟨has, housed, scope⟩ := entry_eq_some.mp owned
  obtain ⟨stored, holder⟩ := row
  simp only [entry_eq_some, getElem?_erase, getElem?_release]
  constructor
  · rintro ⟨listed, held, label⟩
    split at listed
    · cases listed
    refine ⟨listed, ?_, label⟩
    split at held
    · split at held
      · cases held
      · rw [Option.some.injEq] at held
        rw [← held, scope, Option.some.injEq] at label
        exact absurd label.symm apart
    · exact held
  · rintro ⟨listed, held, label⟩
    have foreign : payload.segment ≠ stored.segment := by
      intro same
      rw [← same, housed, Option.some.injEq] at held
      rw [← held, scope, Option.some.injEq] at label
      exact apart label.symm
    have distinct : msg ≠ found := by
      rintro rfl
      rw [has, Option.some.injEq] at listed
      exact foreign (congrArg StoredPayloadRecord.segment listed)
    rw [if_neg distinct, if_neg foreign]
    exact ⟨listed, held, label⟩

theorem removePayload_meets (inv : Invariant runtime orderly s floating missing stale)
    (unreferred : ∀ slot, ¬ Refers s.shelf slot msg)
    (owned : ∀ {owner row}, s.ledger.entry msg = some (owner, row) → owner = project) :
    Meets (s.removePayload msg)
      (fun s' => Reledgered s s' ∧ Advances project nobody s s' ∧
        Invariant runtime orderly s' (fun other => floating other ∧
          other ≠ msg) missing stale) fail := by
  unfold removePayload
  cases found : s.payloads[msg]? with
  | none =>
    refine ⟨rfl, .refl project s, { inv with accounts := { inv.accounts with covered := ?_ } }⟩
    intro other payload has
    refine (inv.accounts.covered has).imp_left fun floats => ⟨floats, ?_⟩
    rintro rfl
    cases found.symm.trans has
  | some payload =>
    obtain ⟨segment, owner, has, housed⟩ := inv.accounts.housed found
    have entry : s.ledger.entry msg = some (owner, payload, segment) :=
      entry_eq_some.mpr ⟨found, has, housed.projectId⟩
    have same : owner = project := owned entry
    subst same
    have labelled := inv.accounts.labelled has
    have removed := inv.accounts.remove found has unreferred
    have isolated :
        ∀ {listed : MessageId} {other : ProjectId} {row : StoredPayloadRecord × BrokerPayloadSegment},
        other ≠ owner → (({ s.ledger with
          payloads := s.payloads.erase msg
          segments := release s.payloadSegments payload.segment segment } : Ledger).entry listed =
            some (other, row) ↔ s.ledger.entry listed = some (other, row)) :=
      fun apart => entry_release entry apart
    apply Meets.orElse
    · intro absent
      cases has.symm.trans absent
    · intro holder held
      have same : holder = segment := Option.some.inj (held.symm.trans has)
      subst same
      apply Meets.require (by simpa using labelled.2.2.1)
      simp only [release] at removed isolated
      split
      next last =>
        simp only [if_pos last] at removed isolated
        exact ⟨rfl, Reledgered.advances rfl isolated, { inv with accounts := removed }⟩
      next more =>
        simp only [if_neg more] at removed isolated
        exact ⟨rfl, Reledgered.advances rfl isolated, { inv with accounts := removed }⟩

theorem removePayloads_meets (msgs : List MessageId)
    (inv : Invariant runtime orderly s floating missing stale)
    (unreferred : ∀ msg ∈ msgs, ∀ slot, ¬ Refers s.shelf slot msg)
    (owned : ∀ msg ∈ msgs, ∀ owner row, s.ledger.entry msg = some (owner, row) → owner = project) :
    Meets (msgs.foldlM removePayload s)
      (fun s' => Reledgered s s' ∧ Advances project nobody s s' ∧
        Invariant runtime orderly s' (fun msg => floating msg ∧ msg ∉ msgs) missing stale) fail := by
  induction msgs generalizing s floating with
  | nil => exact ⟨rfl, .refl project s, by simpa using inv⟩
  | cons first rest ih =>
    rw [foldlM_cons]
    apply Meets.bind (removePayload_meets inv (unreferred first (by simp)) (owned first (by simp) _ _))
    rintro middle ⟨frame, advances, after⟩
    have shelf : middle.shelf = s.shelf := by rw [frame]; rfl
    refine Meets.imp (ih after ?_ ?_) ?_
    · intro msg mem
      rw [shelf]
      exact unreferred msg (mem_cons_of_mem _ mem)
    · intro msg mem owner row entry
      by_contra foreign
      exact foreign (owned msg (mem_cons_of_mem _ mem) owner row
        ((advances.isolated.payloads foreign).mp entry))
    · rintro final ⟨continued, later, settled⟩
      refine ⟨frame.trans continued, advances.trans later, ?_⟩
      simpa only [mem_cons, not_or, and_assoc] using settled

theorem Ledger.entry_billed {owner : ProjectId} {bytes : Nat} {ledger : Ledger}
    (billed : ledger.billed msg = some (owner, bytes)) {other : ProjectId}
    (entry : ledger.entry msg = some (other, row)) : other = owner := by
  obtain ⟨payload, seg, found, has, scope, _⟩ := billed_eq_some.mp billed
  obtain ⟨listed, held, label⟩ := entry_eq_some.mp entry
  rw [found, Option.some.injEq] at listed
  rw [← listed, has, Option.some.injEq] at held
  rw [← held, scope, Option.some.injEq] at label
  exact label.symm

theorem reclaimPayloadCandidates_meets {candidates : ExtTreeSet MessageId}
    (inv : Invariant runtime orderly s (fun msg => msg ∈ candidates) missing stale)
    (charged : ∀ msg ∈ candidates, ∃ bytes, s.ledger.billed msg = some (project, bytes)) :
    Meets (s.reclaimPayloadCandidates project candidates)
      (fun s' => Reledgered s s' ∧ Advances project nobody s s' ∧
        Invariant runtime orderly s' (fun _ => False) missing stale) fail := by
  have unreferred : ∀ msg ∈ candidates.toList.filter (fun msg => !s.stillLive project msg),
      ∀ slot, ¬ Refers s.shelf slot msg := by
    intro msg mem slot referred
    simp only [mem_filter, ExtTreeSet.mem_toList, Bool.not_eq_true'] at mem
    obtain ⟨bytes, billed⟩ := charged msg mem.1
    obtain ⟨_, backed⟩ := inv.accounts.backed referred
    have within : project = slot.project := by
      rw [billed, Option.some.injEq, Prod.mk.injEq] at backed
      exact backed.1
    have live := stillLive_iff.mpr ⟨slot, within.symm, referred⟩
    rw [mem.2] at live
    cases live
  have owned : ∀ msg ∈ candidates.toList.filter (fun msg => !s.stillLive project msg),
      ∀ owner row, s.ledger.entry msg = some (owner, row) → owner = project := by
    intro msg mem owner row entry
    obtain ⟨bytes, billed⟩ := charged msg (ExtTreeSet.mem_toList.mp (mem_filter.mp mem).1)
    exact entry_billed billed entry
  refine Meets.imp (removePayloads_meets _ inv unreferred owned) ?_
  rintro final ⟨frame, advances, after⟩
  have shelf : final.shelf = s.shelf := by rw [frame]; rfl
  refine ⟨frame, advances, { after with accounts := after.accounts.settle ?_ }⟩
  rintro msg ⟨candidate, kept⟩
  right
  simp only [mem_filter, ExtTreeSet.mem_toList, candidate, true_and, Bool.not_eq_true',
    Bool.not_eq_false] at kept
  obtain ⟨slot, _, referred⟩ := stillLive_iff.mp kept
  exact ⟨slot, shelf ▸ referred⟩

def Relet (s s' : BrokerStateMachine) : Prop :=
  s' = { s with deliveryLeases := s'.deliveryLeases, capture := s'.capture }

theorem Relet.advances (frame : Relet s s')
    (leases : ∀ {key : ProjectId × Uuid}, key.1 ≠ project →
    s'.deliveryLeases[key]? = s.deliveryLeases[key]?) : Advances project nobody s s' := by
  refine ⟨⟨?_, ?_, ?_, ?_, ?_, leases, ?_, ?_, ?_⟩, .of_same ?_ ?_ ?_⟩
  all_goals intros; rw [frame]
  · rfl
  · rfl

theorem removeLease_advances (s : BrokerStateMachine) (project : ProjectId) (owner : Uuid) :
    Advances project nobody s (s.removeLease (project, owner)) :=
  Relet.advances rfl fun apart => getElem?_erase_apart Prod.fst apart

theorem removeDeliveryLeaseIfIdle_invariant (inv : Invariant runtime orderly s floating missing stale)
    (project : ProjectId) (owner : Uuid) : Relet s (s.removeDeliveryLeaseIfIdle project owner) ∧
      Advances project nobody s (s.removeDeliveryLeaseIfIdle project owner) ∧
      Invariant runtime orderly (s.removeDeliveryLeaseIfIdle project owner) floating missing
        (fun key => stale key ∧ key ≠ (project, owner)) := by
  unfold removeDeliveryLeaseIfIdle
  split
  next busy =>
    have holds := (ownerHasUnacked_iff inv.classic).mp busy
    refine ⟨rfl, .refl project s, { inv with leased := inv.leased.settle ?_ }⟩
    intro otherProject otherOwner outlived
    by_cases same : (otherProject, otherOwner) = (project, owner)
    · rw [Prod.mk.injEq] at same
      exact .inl (same.1 ▸ same.2 ▸ holds)
    · exact .inr ⟨outlived, same⟩
  next idle =>
    rw [ownerHasUnacked_iff inv.classic] at idle
    exact ⟨rfl, removeLease_advances s project owner, { inv with leased := inv.leased.erase idle }⟩

theorem removeDeliveryLeases_invariant (project : ProjectId) (owners : List Uuid)
    (inv : Invariant runtime orderly s floating missing stale) :
    Relet s (owners.foldl (fun s owner => s.removeDeliveryLeaseIfIdle project owner) s) ∧
      Advances project nobody s (owners.foldl (fun s owner =>
      s.removeDeliveryLeaseIfIdle project owner) s) ∧
      Invariant runtime orderly (owners.foldl (fun s owner =>
        s.removeDeliveryLeaseIfIdle project owner) s) floating missing (fun key => stale key ∧
        ∀ owner ∈ owners, key ≠ (project, owner)) := by
  induction owners generalizing s stale with
  | nil => exact ⟨rfl, .refl project s, by simpa using inv⟩
  | cons owner rest ih =>
    obtain ⟨frame, advances, after⟩ := removeDeliveryLeaseIfIdle_invariant inv project owner
    obtain ⟨continued, later, final⟩ := ih after
    rw [foldl_cons]
    refine ⟨?_, advances.trans later, final.weaken (fun _ => id) ?_⟩
    · unfold Relet at *
      rw [continued, frame]
    · rintro key ⟨⟨outlived, first⟩, others⟩
      exact ⟨outlived, forall_mem_cons.mpr ⟨first, others⟩⟩

theorem mem_unsettledOwners {owner : Uuid} :
    owner ∈ unsettledOwners stream ↔ HeldIn stream owner := by
  unfold unsettledOwners HeldIn
  rw [mem_filterMap]
  constructor
  · rintro ⟨ref, mem, held⟩
    refine ⟨ref, mem, ?_⟩
    cases delivery : ref.delivery <;> simp_all [DeliveryState.ownedBy]
  · rintro ⟨ref, mem, held⟩
    obtain ⟨consumer, tag, delivery⟩ := ownedBy_eq_true.mp held
    exact ⟨ref, mem, by simp [delivery]⟩

theorem withdrawQueue_withdrawn {name : Name} (s : BrokerStateMachine)
    (found : s.queues[name]? = some queue) :
    Withdrawn s.topics s.topics s.queues (s.queues.erase name) s.streams (s.streams.erase queue.stream)
      (fun slot => decide (slot = .queue name)) := by
  have here : slotStream s.topics s.queues (.queue name) = some queue.stream := by
    simp [slotStream, found]
  refine ⟨?_, ?_, ?_⟩
  · intro slot
    cases slot with
    | partition other index => rfl
    | queue other =>
      by_cases same : name = other
      · subst same
        simp [slotStream]
      · simp [slotStream, getElem?_erase, same, Ne.symm same]
  · intro slot id leaves located
    rw [decide_eq_true_eq] at leaves
    subst leaves
    rw [here, Option.some.injEq] at located
    rw [getElem?_erase, if_pos located]
  · intro id elsewhere
    have apart := elsewhere _ (decide_eq_true rfl)
    rw [here, ne_eq, Option.some.injEq] at apart
    rw [getElem?_erase, if_neg apart]

theorem Bound.withdrawQueue (bound : Bound s.bindings s.exchanges s.queues) (project : ProjectId)
    (name : String) (id : StreamId) :
    Bound (s.withdrawQueue project name id).bindings (s.withdrawQueue project name id).exchanges
      (s.withdrawQueue project name id).queues := by
  intro key binding listed
  change (s.bindings.filter _)[key]? = some binding at listed
  rw [ExtTreeMap.getElem?_filter', Option.filter_eq_some_iff] at listed
  obtain ⟨fields, exchange, queue⟩ := bound key binding listed.1
  refine ⟨fields, exchange, ?_⟩
  change (key.1, binding.queue) ∈ s.queues.erase (project, name)
  rw [ExtTreeMap.mem_erase, ne_eq, LawfulEqCmp.compare_eq_iff_eq]
  refine ⟨?_, queue⟩
  intro same
  rw [Prod.mk.injEq] at same
  simp [← same.1, ← same.2] at listed

variable (settled : Settled runtime orderly s)
include settled

theorem withdrawQueue_invariant
    (found : s.queues[(project, name)]? = some queue)
    (standing : s.shelf (.queue (project, name)) = some stream) :
    Invariant runtime orderly (s.withdrawQueue project name queue.stream)
      (fun msg => msg ∈ stream.messages) (fun _ => 0)
      (fun key => key.1 = project ∧ HeldIn stream key.2) := by
  have withdrawn := withdrawQueue_withdrawn s found
  have shelf : ∀ slot, (s.withdrawQueue project name queue.stream).shelf slot = _ :=
    settled.owned.shelfOf_withdraw withdrawn
  have extension : Extends s.shelf (s.withdrawQueue project name queue.stream).shelf :=
    fun other index log standingLog => ⟨log, (shelf _).trans standingLog, Nat.le_refl _⟩
  have kept : ∀ {other : Name} {record : Queue}, decide (Slot.queue other = .queue (project,
      name)) = false → s.queues[other]? = some record →
      (s.withdrawQueue project name queue.stream).queues[other]? = some record := by
    intro other record apart recorded
    change (s.queues.erase (project, name))[other]? = some record
    rw [getElem?_erase, if_neg ?_, recorded]
    rintro rfl
    simp at apart
  have declared : Declared (s.withdrawQueue project name queue.stream).topics
      (s.withdrawQueue project name queue.stream).queues := by
    refine ⟨settled.declared.topic, ?_⟩
    intro other record recorded
    change (s.queues.erase (project, name))[other]? = some record at recorded
    replace recorded := (erase_eq_some.mp recorded).2
    exact settled.declared.queue recorded
  have after := settled.withdraw (s.withdrawQueue project name queue.stream)
    withdrawn rfl rfl kept declared
    (settled.bound.withdrawQueue project name queue.stream) (settled.grouped.extend extension)
    (settled.leased.withdraw shelf)
  refine after.weaken ?_ ?_
  · rintro msg (floats | ⟨slot, leaves, log, standingLog, mem⟩)
    · exact absurd floats id
    · rw [decide_eq_true_eq] at leaves
      rw [leaves, standing, Option.some.injEq] at standingLog
      exact standingLog ▸ mem
  · rintro key (outlived | ⟨slot, log, leaves, within, standingLog, held⟩)
    · exact absurd outlived id
    · rw [decide_eq_true_eq] at leaves
      rw [leaves, standing, Option.some.injEq] at standingLog
      exact ⟨by rw [← within, leaves]; rfl, standingLog ▸ held⟩

theorem withdrawQueue_advances (found : s.queues[(project, name)]? = some queue) :
    Advances project nobody s (s.withdrawQueue project name queue.stream) := by
  have withdrawn := withdrawQueue_withdrawn s found
  refine ⟨{ Isolated.refl project s with queues := ?_, bindings := ?_, consumers := ?_, shelf := ?_ },
    Nat.le_refl _, ?_, ?_⟩
  · exact fun apart => getElem?_erase_apart Prod.fst apart
  · intro key apart
    change (s.bindings.filter _)[key]? = s.bindings[key]?
    exact getElem?_filter_kept fun _ => by simp [apart]
  · exact fun apart => getElem?_erase_apart Prod.fst apart
  · intro slot apart
    refine (settled.owned.shelfOf_withdraw withdrawn slot).trans ?_
    rw [decide_eq_false, cond_false]
    · rfl
    · rintro rfl
      exact apart rfl
  · intro id after has
    change (s.streams.erase queue.stream)[id]? = some after at has
    replace has := (erase_eq_some.mp has).2
    exact ⟨after, .inl has, .refl after⟩
  · intro other after listed
    change (s.queues.erase (project, name))[other]? = some after at listed
    replace listed := (erase_eq_some.mp listed).2
    exact .inr ⟨after, listed, rfl, rfl, rfl⟩

theorem dropQueue_meets (project : ProjectId) (name : String) : Meets (s.dropQueue project name)
      (fun s' => Settled runtime orderly s' ∧ Advances project nobody s s') fail := by
  unfold dropQueue
  cases found : s.queues[(project, name)]? with
  | none => exact ⟨settled, .refl project s⟩
  | some queue =>
    obtain ⟨stream, here⟩ :=
      settled.stands (show slotStream s.topics s.queues (.queue (project, name)) =
      some queue.stream by simp [slotStream, found])
    have log : s.streams[queue.stream]?.getD StreamState.empty = stream := by
      rw [here.stream, Option.getD_some]
    have withdrawn := withdrawQueue_invariant settled found here.standing
    obtain ⟨relet, released, idle⟩ := removeDeliveryLeases_invariant project
      (ExtTreeSet.ofList (unsettledOwners stream)).toList withdrawn
    simp only [log]
    refine Meets.imp (reclaimPayloadCandidates_meets (idle.weaken ?_ ?_) ?_)
      (fun _ reclaimed => ⟨reclaimed.2.2,
        ((withdrawQueue_advances settled found).trans released).trans reclaimed.2.1⟩)
    · intro msg mem
      simpa using mem
    · rintro key ⟨⟨within, held⟩, others⟩
      refine others key.2 ?_ (by rw [← within])
      simpa using mem_unsettledOwners.mpr held
    · intro msg mem
      have referred : Refers s.shelf (.queue (project, name)) msg :=
        ⟨stream, here.standing, by simpa using mem⟩
      rw [relet]
      exact settled.accounts.backed referred

end Reclaim

end IronGraph.Broker
