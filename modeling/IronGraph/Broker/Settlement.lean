import IronGraph.Broker.Delivery

/-!
Settlement: an acknowledgement or a rejection reaches exactly the references that the connection and the
consumer hold up to the tag, and what is rejected for good goes where the queue sends its dead letters.
-/

namespace IronGraph.Broker

open List hiding getElem?_insert
open Std Outcome OrderedMap Sliding BrokerStateMachine

variable {owner : Uuid} {consumer deliveryTag : Nat} {stream : StreamState}

section Reached

variable {multiple : Bool} {tag : Nat}

theorem settledBy_eq_true {reference : StreamReference} :
    reference.settledBy owner consumer deliveryTag multiple = true ↔
      ∃ tag, reference.delivery = .unacked owner consumer tag ∧
        bif multiple then tag ≤ deliveryTag else tag = deliveryTag := by
  unfold StreamReference.settledBy
  cases reference.delivery <;> cases multiple <;> simp [and_assoc]

theorem StreamWell.mem_settledOffsets (well : StreamWell stream) {offset : Nat} :
    offset ∈ settledOffsets stream owner consumer deliveryTag multiple ↔
      ∃ reference ∈ stream.records.items,
        reference.settledBy owner consumer deliveryTag multiple = true ∧ reference.offset = offset := by
  have small : ∀ reference ∈ stream.records.items, saturatingAdd reference.offset 1 =
      reference.offset + 1 := by
    intro reference mem
    have below := (well.position mem).2.1
    have bounded := well.bounded
    unfold saturatingAdd
    omega
  cases multiple with
  | true =>
    have walked := takeWhile_eq_filter_of_pairwise
      (fun reference : StreamReference => decide (saturatingAdd reference.offset 1 ≤ deliveryTag))
      (well.pairwise.imp_of_mem fun {prior later} first second ordered => by
        rw [small prior first, small later second, decide_eq_true_eq, decide_eq_true_eq]
        omega)
    simp only [settledOffsets, if_true, walked, mem_map, mem_filter, and_assoc]
    refine exists_congr fun reference => and_congr_right fun mem => ?_
    rw [settledBy_eq_true, small reference mem, ← and_assoc]
    refine and_congr_left fun _ => ?_
    cases held : reference.delivery with
    | unacked candidate candidateConsumer tag =>
      have tagged := (well.tagged mem held).2
      simp [tagged, and_comm, and_assoc]
    | _ => simp
  | false =>
    -- A tag names the offset before it, so there is at most one reference to look at.
    have named : ∀ reference ∈ stream.records.items,
        reference.settledBy owner consumer deliveryTag false = true →
          reference.offset + 1 = deliveryTag := by
      intro reference mem reached
      obtain ⟨tag, held, same⟩ := settledBy_eq_true.mp reached
      exact (well.tagged mem held).2.symm.trans same
    simp only [settledOffsets, Bool.false_eq_true, if_false]
    constructor
    · intro listed
      split at listed
      · cases listed
      · split at listed
        next pos reference found =>
          obtain ⟨mem, numbered⟩ := well.getByOffset_eq_some found
          split at listed
          next reached =>
            rw [mem_singleton] at listed
            exact ⟨reference, mem, reached, numbered.trans listed.symm⟩
          · cases listed
        · cases listed
    · rintro ⟨reference, mem, reached, rfl⟩
      have tag := named reference mem reached
      rw [if_neg (by omega), show deliveryTag - 1 = reference.offset by omega, well.getByOffset mem]
      simp only [reached, if_true, mem_singleton]

theorem StreamWell.nodup_settledOffsets (well : StreamWell stream) :
    (settledOffsets stream owner consumer tag multiple).Nodup := by
  unfold settledOffsets
  split
  · exact well.nodup_offsets.sublist ((filter_sublist.trans (takeWhile_sublist _)).map _)
  split
  · exact nodup_nil
  split
  · split <;> simp
  · exact nodup_nil

theorem StreamWell.offset_mem_settledOffsets {reference : StreamReference}
    (well : StreamWell stream) (mem : reference ∈ stream.records.items) :
    reference.offset ∈ settledOffsets stream owner consumer tag multiple ↔
      reference.settledBy owner consumer tag multiple = true := by
  rw [well.mem_settledOffsets]
  constructor
  · rintro ⟨other, inside, reached, same⟩
    rwa [← well.offset_injective inside mem same]
  · exact fun reached => ⟨reference, mem, reached, rfl⟩

end Reached

section Settle

variable {orderly : Prop} {s : BrokerStateMachine} (ack requeue : Bool)
  (reference : StreamReference) {project : ProjectId} {runtime : Runtime}
  {deadLetters : List (MessageId × Nat)}

def resolved : StreamReference :=
  if ack then { reference with delivery := .acknowledged }
  else if requeue then requeued reference
  else { reference with delivery := .deadLettered }

theorem resolved_unheld (owner : Uuid) (consumer tag : Nat) :
    (resolved ack requeue reference).delivery ≠ .unacked owner consumer tag := by
  cases ack <;> cases requeue <;> nofun

theorem resolved_redelivery (ack requeue : Bool) : Redelivery (resolved ack requeue) := by
  refine ⟨?_, ?_, fun held => absurd held (resolved_unheld _ _ _ _ _ _)⟩
  · intro reference
    cases ack <;> cases requeue <;> rfl
  · intro reference
    cases ack <;> cases requeue <;> rfl

theorem settleOffsets_meets {offsets : List Nat} {fail : Error → Prop} (well : StreamWell stream)
    (id : StreamId) (ack requeue : Bool) (distinct : offsets.Nodup)
    (listed : ∀ offset ∈ offsets, ∃ reference ∈ stream.records.items, reference.offset = offset) :
    Meets (offsets.foldlM (settleOffset ack requeue) ({ id, stream, changes := [] }, []))
      (fun progress => progress.1.id = id ∧
        Rewrote (resolved ack requeue) stream offsets progress.1.stream ∧
        (progress.2 ≠ [] → ack = false ∧ requeue = false) ∧
          ∀ dead ∈ progress.2, dead.1 ∈ stream.messages) fail := by
  refine Meets.loop (fun done (progress : StreamEdit × List (MessageId × Nat)) => progress.1.id = id ∧
    Rewrote (resolved ack requeue) stream done progress.1.stream ∧
      (progress.2 ≠ [] → ack = false ∧ requeue = false) ∧
      ∀ dead ∈ progress.2, dead.1 ∈ stream.messages)
    ?_ ?_
  · exact ⟨rfl, Rewrote.refl well, fun some => absurd rfl some, nofun⟩
  · rintro done offset rest ⟨edit, deadLetters⟩ whole ⟨same, rewrote, kind, msgs⟩
    obtain ⟨reference, mem, rfl⟩ := listed offset (by simp [← whole])
    have pending : reference.offset ∉ done := by
      intro inside
      rw [← whole] at distinct
      exact disjoint_of_nodup_append distinct inside (mem_cons_self ..)
    obtain ⟨found, next⟩ := rewrote.set (resolved_redelivery ack requeue) mem pending
    apply Meets.passed (orElse_eq_ok.mpr found)
    cases ack with
    | true => exact ⟨same, next, kind, msgs⟩
    | false =>
      cases requeue with
      | true => exact ⟨same, next, kind, msgs⟩
      | false =>
        refine ⟨same, next, fun _ => ⟨rfl, rfl⟩, ?_⟩
        intro dead inside
        rcases mem_append.mp inside with old | new
        · exact msgs dead old
        · rw [mem_singleton.mp new]
          exact mem_map_of_mem mem

theorem appendDeadLetters_meets (exchange routing : String) (targets : List StreamId)
    (distinct : targets.Nodup)
    (settled : Settled runtime orderly s) (inProject : ∀ id ∈ targets, InProject s project id)
    (charged : ∀ dead ∈ deadLetters, ∃ bytes, s.ledger.billed dead.1 = some (project, bytes)) :
    Meets (appendDeadLetters exchange routing targets deadLetters s)
      (fun s' => Settled runtime orderly s' ∧ ∃ drafts, Appended project s s' drafts) Overflow := by
  induction deadLetters generalizing s with
  | nil => exact ⟨settled, _, .refl project s⟩
  | cons dead rest ih =>
    obtain ⟨bytes, billed⟩ := charged dead (by simp)
    apply Meets.bind (appendToStreams_meets targets distinct settled inProject billed _ _ _)
    rintro ⟨middle, offsets⟩ ⟨_, appended, after⟩
    have frame : Restreamed s middle := appended.frame
    refine Meets.imp (ih (after.weaken (fun _ floats => floats.1) fun _ outlived => outlived)
      (fun id mem => (inProject id mem).restream frame) ?_) ?_
    · intro other mem
      rw [frame.ledger]
      exact charged other (mem_cons_of_mem _ mem)
    · rintro final ⟨last, drafts, grown⟩
      exact ⟨last, _, appended.trans grown⟩

theorem routedStreams_eq_ok {missing : Error} {exchange routing : String}
    {targets : ExtTreeSet StreamId} {other : Error}
    (routed : s.routedStreams missing project exchange routing = .ok targets) :
    s.routedStreams other project exchange routing = .ok targets := by
  unfold routedStreams at routed ⊢
  split at routed
  next unnamed => rwa [if_pos unnamed]
  next named =>
    rw [if_neg named]
    obtain ⟨decl, found, routed⟩ := bind_eq_ok.mp routed
    rw [orElse_eq_ok] at found
    rw [found]
    exact routed

theorem deadLetter_meets {queue : Queue} (settled : Settled runtime orderly s)
    (routed : deadLetters ≠ [] → ∀ exchange, queue.deadLetterExchange = some exchange → ∃ targets,
      s.amqpTargets project exchange (queue.deadLetterRoutingKey.getD "") = .ok targets)
    (charged : ∀ dead ∈ deadLetters, ∃ bytes, s.ledger.billed dead.1 = some (project, bytes)) :
    Meets (s.deadLetter project queue deadLetters)
      (fun s' => Settled runtime orderly s' ∧ ∃ drafts, Appended project s s' drafts) Overflow := by
  unfold deadLetter
  split
  · exact ⟨settled, _, .refl project s⟩
  next some =>
    split
    · exact ⟨settled, _, .refl project s⟩
    next exchange named =>
      obtain ⟨targets, routes⟩ := routed (by simpa using some) exchange named
      apply Meets.passed (routedStreams_eq_ok routes)
      exact appendDeadLetters_meets _ _ _ (nodup_toList targets) settled
        (fun id mem => routedStreams_inProject routes (ExtTreeSet.mem_toList.mp mem)) charged

/-- How a settlement leaves the logs: the references it reaches in its queue are resolved, and dead
letters follow at the end of some logs. -/
def Settles (s s' : BrokerStateMachine) (target : StreamId) (reached : StreamReference → Bool)
    (ack requeue : Bool) :
    Prop :=
  ∀ (id : StreamId) (before : StreamState), s.streams[id]? = some before → ∃ after drafts,
    s'.streams[id]? = some after ∧ after.records.items = (before.records.items.map fun reference =>
        if id = target ∧ reached reference = true then resolved ack requeue reference else reference) ++
          placeAll before.nextOffset drafts

theorem settle_meets {queue : String} (settled : Settled runtime orderly s)
    {multiple ack requeue : Bool}
    (valid : s.validateSettlement project queue owner consumer deliveryTag multiple = .ok ())
    (routes : ack = false → requeue = false →
      s.validateDeadLetterAppends project queue owner consumer deliveryTag multiple = .ok ()) :
    ∃ record, s.queues[(project, queue)]? = some record ∧
      Meets (s.settle project queue owner consumer deliveryTag multiple ack requeue)
        (fun s' => Settled runtime orderly s' ∧ Advances project nobody s s' ∧
          Settles s s' record.stream (StreamReference.settledBy owner consumer deliveryTag multiple)
            ack requeue)
        Overflow := by
  obtain ⟨record, declared, valid⟩ := bind_eq_ok.mp valid
  obtain ⟨_, classic, valid⟩ := bind_eq_ok.mp valid
  obtain ⟨stream, found, reaches⟩ := bind_eq_ok.mp valid
  rw [orElse_eq_ok] at declared found
  rw [require_eq_ok] at classic reaches
  have here : At s (.queue (project, queue)) record.stream stream :=
    ⟨by simp [slotStream, declared], found⟩
  have well := settled.logs here.standing
  refine ⟨record, declared, ?_⟩
  unfold settle
  apply Meets.passed (orElse_eq_ok.mpr declared)
  apply Meets.require classic
  apply Meets.passed (orElse_eq_ok.mpr here.editStream)
  generalize listed : settledOffsets stream owner consumer deliveryTag multiple = offsets
  have reachedOffsets : ∀ reference ∈ stream.records.items,
      (reference.offset ∈ offsets ↔ reference.settledBy owner consumer deliveryTag multiple = true) :=
    fun reference mem => listed ▸ well.offset_mem_settledOffsets mem
  apply Meets.bind (settleOffsets_meets well record.stream ack requeue
    (listed ▸ well.nodup_settledOffsets)
    fun offset mem => (well.mem_settledOffsets.mp (listed ▸ mem)).imp fun _ held => ⟨held.1, held.2.2⟩)
  rintro ⟨edit, deadLetters⟩ ⟨(same : edit.id = record.stream), rewrote, kind, msgs⟩
  have nonempty : offsets ≠ [] := by
    obtain ⟨reference, mem, reached⟩ := any_eq_true.mp reaches
    exact ne_nil_of_mem ((reachedOffsets reference mem).mpr reached)
  apply Meets.require (by simpa using nonempty)
  have atEdit : At s (.queue (project, queue)) edit.id stream := same.symm ▸ here
  obtain ⟨advances, after⟩ := settled.redeliver nobody atEdit (resolved_redelivery ack requeue) rewrote
    fun _ _ _ _ _ _ held => absurd held (resolved_unheld _ _ _ _ _ _)
  obtain ⟨relet, released, idle⟩ := removeDeliveryLeaseIfIdle_invariant after project owner
  generalize (s.commitStream edit).removeDeliveryLeaseIfIdle project owner =
    middle at relet released idle ⊢
  -- Whoever was affected is the owner, whose lease has been looked at.
  have settledMiddle : Settled runtime orderly middle := by
    refine idle.weaken (fun _ floats => floats) ?_
    rintro ⟨otherProject, candidate⟩ ⟨outlived | ⟨within, reference, mem, changed, held⟩, apart⟩
    · exact outlived
    · obtain ⟨tag, delivery, _⟩ := settledBy_eq_true.mp ((reachedOffsets reference mem).mp changed)
      obtain ⟨_, _, deliveryHolder⟩ := ownedBy_eq_true.mp held
      rw [delivery, DeliveryState.unacked.injEq] at deliveryHolder
      exact apart (Prod.ext within deliveryHolder.1.symm)
  have routed : deadLetters ≠ [] → ∀ exchange, record.deadLetterExchange = some exchange → ∃ targets,
      middle.amqpTargets project exchange (record.deadLetterRoutingKey.getD "") = .ok targets := by
    intro some exchange named
    obtain ⟨rejected, final⟩ := kind some
    obtain ⟨again, redeclared, checked⟩ := bind_eq_ok.mp (routes rejected final)
    rw [orElse_eq_ok, declared, Option.some.injEq] at redeclared
    subst redeclared
    simp only [named] at checked
    obtain ⟨targets, routed, _⟩ := bind_eq_ok.mp checked
    rw [relet]
    exact ⟨targets, routed⟩
  have charged : ∀ dead ∈ deadLetters, ∃ bytes, middle.ledger.billed dead.1 =
      some (project, bytes) := by
    intro dead mem
    rw [relet]
    exact settled.accounts.backed (show Refers s.shelf (.queue (project, queue)) dead.1 from
      ⟨stream, here.standing, msgs dead mem⟩)
  refine Meets.imp (deadLetter_meets settledMiddle routed charged) ?_
  rintro s' ⟨last, drafts, appended⟩
  refine ⟨last, (advances.trans released).trans appended.advances, ?_⟩
  intro id before has
  have edited : middle.streams[id]? = (s.streams.insert edit.id edit.stream)[id]? := by
    rw [relet]
    rfl
  rw [getElem?_insert, same] at edited
  by_cases target : id = record.stream
  · subst target
    rw [found, Option.some.injEq] at has
    subst has
    rw [if_pos rfl] at edited
    obtain ⟨after, standing, _, _, items⟩ := appended.logs edited
    refine ⟨after, drafts record.stream, standing, items.trans ?_⟩
    rw [rewrote.items, rewrote.nextOffset]
    congr 1
    apply map_congr_left
    intro reference mem
    simp only [rewriteAt, reachedOffsets reference mem, true_and]
  · rw [if_neg (Ne.symm target), has] at edited
    obtain ⟨after, standing, _, _, items⟩ := appended.logs edited
    refine ⟨after, drafts id, standing, items.trans ?_⟩
    simp [target]

end Settle

end IronGraph.Broker
