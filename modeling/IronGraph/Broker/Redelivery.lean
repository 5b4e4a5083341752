import IronGraph.Broker.PublishCommands

/-!
Commands that rewrite the delivery state of references: purging, handing back, settling. None of
them moves a message, so only who holds what can change.
-/

namespace IronGraph.Broker

open List hiding getElem?_insert
open Std Outcome OrderedMap BrokerStateMachine

variable {stream : StreamState} {runtime : Runtime} {s : BrokerStateMachine}
  {floating : MessageId → Prop} {missing : Nat → Nat} {stale : ProjectId × Uuid → Prop}
  {slot : Slot} {edit : StreamEdit}

section Rewrite

variable {orderly : Prop} {rewrite : StreamReference → StreamReference} {offsets : List Nat}

def Classic (s : BrokerStateMachine) (slot : Slot) : Prop :=
  ∃ name queue, slot = .queue name ∧ s.queues[name]? = some queue ∧ queue.kind = .classic

def Affected (stream : StreamState) (offsets : List Nat) (owner : Uuid) : Prop :=
  ∃ reference ∈ stream.records.items, reference.offset ∈ offsets ∧
    reference.delivery.ownedBy owner = true

theorem Rewrote.kept {after : StreamState} (rewrote : Rewrote rewrite stream offsets after)
    {owner : Uuid} (held : HeldIn stream owner) : HeldIn after owner ∨ Affected stream offsets owner := by
  obtain ⟨ref, mem, owned⟩ := held
  by_cases changed : ref.offset ∈ offsets
  · exact .inr ⟨ref, mem, changed, owned⟩
  · refine .inl ⟨ref, ?_, owned⟩
    rw [rewrote.items, mem_map]
    exact ⟨ref, mem, by simp [rewriteAt, changed]⟩

theorem Rewrote.gained {after : StreamState} (rewrote : Rewrote rewrite stream offsets after)
    {owner : Uuid} (held : HeldIn after owner) :
    HeldIn stream owner ∨ ∃ ref ∈ stream.records.items, ref.offset ∈ offsets ∧
        (rewrite ref).delivery.ownedBy owner = true := by
  obtain ⟨ref, mem, owned⟩ := held
  rw [rewrote.items, mem_map] at mem
  obtain ⟨source, inside, rfl⟩ := mem
  unfold rewriteAt at owned
  split at owned
  next changed => exact .inr ⟨source, inside, changed, owned⟩
  · exact .inl ⟨source, inside, owned⟩

/-- The commit of a rewritten stream: the leases of those who were affected may be stale, and
whoever was handed a reference has a lease. -/
theorem Invariant.redeliver (inv : Invariant runtime orderly s floating missing stale)
    (hands : StreamId → Uuid → Nat → Prop) (here : At s slot edit.id stream)
    (redelivery : Redelivery rewrite) (rewrote : Rewrote rewrite stream offsets edit.stream)
    (handed : ∀ ref ∈ stream.records.items, ref.offset ∈ offsets → ∀ owner consumer tag,
      (rewrite ref).delivery = .unacked owner consumer tag →
        (hands edit.id owner consumer ∧ (slot.project, owner) ∈ s.deliveryLeases ∧ Classic s slot) ∨
          ref.delivery = .unacked owner consumer tag) :
          Advances slot.project hands s (s.commitStream edit) ∧
      Invariant runtime orderly (s.commitStream edit) floating missing
        (fun key => stale key ∨ (key.1 = slot.project ∧ Affected stream offsets key.2)) := by
  have msgs := rewrote.messages redelivery
  have gained : ∀ owner, HeldIn edit.stream owner → HeldIn stream owner ∨
      ((slot.project, owner) ∈ s.deliveryLeases ∧ Classic s slot) := by
    intro owner held
    rcases rewrote.gained held with before | ⟨ref, mem, changed, owned⟩
    · exact .inl before
    · obtain ⟨consumer, tag, delivery⟩ := ownedBy_eq_true.mp owned
      rcases handed ref mem changed owner consumer tag delivery with ⟨_, given⟩ | kept
      · exact .inr given
      · exact .inl ⟨ref, mem, ownedBy_eq_true.mpr ⟨consumer, tag, kept⟩⟩
  refine ⟨inv.owned.advances here (rewrote.follows redelivery
    fun ref mem changed owner consumer tag held =>
      (handed ref mem changed owner consumer tag held).imp_left (·.1)),
    inv.commitStream here rewrote.well (Nat.le_of_eq rewrote.nextOffset.symm)
      (inv.accounts.replace here.standing ?_ ?_ ?_ ?_)
      (inv.classic.replace here.standing fun owner held => (gained owner held).imp_right (·.2))
      (inv.leased.replace here.standing (Affected stream offsets)
        (fun owner held => (gained owner held).imp_right (·.1)) fun owner held => rewrote.kept held)⟩
  · exact fun msg mem => .inl (msgs ▸ mem)
  · rw [msgs, rewrote.retainedBytes]
    exact inv.accounts.balanced here.standing
  · rw [rewrote.retainedBytes]
    exact inv.accounts.affordable here.standing
  · rw [msgs]
    exact fun _ covered => covered

theorem Rewrote.set {edit : StreamEdit} (rewrote : Rewrote rewrite stream offsets edit.stream)
    (redelivery : Redelivery rewrite) {ref : StreamReference} (mem : ref ∈ stream.records.items)
    (pending : ref.offset ∉ offsets) :
    edit.stream.getByOffset ref.offset = some (ref.offset, ref) ∧
    Rewrote rewrite stream (offsets ++ [ref.offset])
        (edit.set ref.offset (rewrite ref)).stream :=
  ⟨rewrote.getByOffset mem pending, rewrote.step redelivery mem pending⟩

end Rewrite

section Requeue

variable {orderly : Prop}

def requeued (reference : StreamReference) : StreamReference :=
  { reference with delivery := .ready, redelivered := true }

theorem requeued_redelivery : Redelivery requeued := ⟨fun _ => rfl, fun _ => rfl, nofun⟩

def discarded (reference : StreamReference) : StreamReference :=
  if reference.delivery = .ready then { reference with delivery := .acknowledged } else reference

theorem discarded_redelivery : Redelivery discarded := by
  refine ⟨?_, ?_, ?_⟩
  · intro ref
    unfold discarded
    split <;> rfl
  · intro ref
    unfold discarded
    split <;> rfl
  · intro ref owner consumer tag held
    unfold discarded at held
    split at held
    · cases held
    · exact .inl held

theorem discarded_ownedBy (ref : StreamReference) (owner : Uuid) :
    (discarded ref).delivery.ownedBy owner = ref.delivery.ownedBy owner := by
  unfold discarded
  split
  next ready => rw [ready]; rfl
  · rfl

variable {id : StreamId}

theorem requeueOffsets_rewrote {done todo : List Nat}
    (rewrote : Rewrote requeued stream done edit.stream) (same : edit.id = id)
    (nodup : (done ++ todo).Nodup)
    (has : ∀ offset ∈ todo, ∃ ref ∈ stream.records.items, ref.offset = offset) :
    (todo.foldl requeueOffset edit).id = id ∧
      Rewrote requeued stream (done ++ todo) (todo.foldl requeueOffset edit).stream := by
  induction todo generalizing done edit with
  | nil => exact ⟨same, by rw [append_nil]; exact rewrote⟩
  | cons offset rest ih =>
    obtain ⟨ref, mem, rfl⟩ := has offset (by simp)
    have pending : ref.offset ∉ done := fun inside =>
      (disjoint_of_nodup_append nodup) inside (mem_cons_self ..)
    obtain ⟨found, next⟩ := rewrote.set requeued_redelivery mem pending
    have step : requeueOffset edit ref.offset = edit.set ref.offset (requeued ref) := by
      simp [requeueOffset, found, requeued]
    rw [foldl_cons, step, append_cons]
    exact ih next same (by rw [← append_cons]; exact nodup) fun other inside =>
      has other (mem_cons_of_mem _ inside)

theorem requeueOwned_invariant (inv : Invariant runtime orderly s floating missing stale)
    (located : slotStream s.topics s.queues slot = some id) (owner : Uuid) :
    Restreamed s (s.requeueOwned owner id) ∧ Advances slot.project nobody s (s.requeueOwned owner id) ∧
      Invariant runtime orderly (s.requeueOwned owner id) floating missing
        (fun key => stale key ∨ key = (slot.project, owner)) ∧
      ∀ other log, (s.requeueOwned owner id).shelf other = some log → HeldIn log owner →
        other ≠ slot ∧ s.shelf other = some log := by
  obtain ⟨stream, here⟩ := inv.stands located
  have well := inv.logs here.standing
  -- The offsets of the owner's references, which are distinct because all offsets are.
  generalize owned : (stream.records.items.filter fun ref =>
    ref.delivery.ownedBy owner).map (·.offset) = offsets
  have nodup : offsets.Nodup := by
    rw [← owned]
    exact well.nodup_offsets.sublist (filter_sublist.map _)
  have listed : ∀ offset ∈ offsets, ∃ ref ∈ stream.records.items,
      ref.delivery.ownedBy owner = true ∧ ref.offset = offset := by
    intro offset mem
    rw [← owned, mem_map] at mem
    obtain ⟨ref, kept, same⟩ := mem
    exact ⟨ref, (mem_filter.mp kept).1, (mem_filter.mp kept).2, same⟩
  generalize rewritten : offsets.foldl requeueOffset { id, stream, changes := [] } = edit
  have edited : edit.id = id ∧ Rewrote requeued stream offsets edit.stream := by
    rw [← rewritten]
    exact requeueOffsets_rewrote (Rewrote.refl well) rfl nodup
      fun offset mem => (listed offset mem).imp fun _ found => ⟨found.1, found.2.2⟩
  obtain ⟨same, rewrote⟩ := edited
  have step : s.requeueOwned owner id = s.commitStream edit := by
    simp only [requeueOwned, here.editStream, owned, rewritten]
  have atEdit : At s slot edit.id stream := same.symm ▸ here
  rw [step]
  obtain ⟨advances, after⟩ := inv.redeliver nobody atEdit requeued_redelivery rewrote nofun
  refine ⟨rfl, advances, after.weaken (fun _ floats => floats) ?_, ?_⟩
  · rintro ⟨project, holder⟩ (outlived | ⟨within, ref, mem, changed, held⟩)
    · exact .inl outlived
    · obtain ⟨other, inside, heldOther, sameOffset⟩ := listed _ changed
      have equal := well.offset_injective inside mem sameOffset
      subst equal
      obtain ⟨_, _, delivery⟩ := ownedBy_eq_true.mp heldOther
      obtain ⟨_, _, deliveryHolder⟩ := ownedBy_eq_true.mp held
      rw [delivery, DeliveryState.unacked.injEq] at deliveryHolder
      exact .inr (Prod.ext within deliveryHolder.1.symm)
  · intro other log standing held
    have shelf : (s.commitStream edit).shelf = Function.update s.shelf slot (some edit.stream) :=
      inv.owned.shelfOf_insert atEdit.slot edit.stream
    rw [shelf] at standing
    by_cases here : other = slot
    · rw [here, Function.update_self, Option.some.injEq] at standing
      obtain ⟨ref, mem, heldAfter⟩ := standing ▸ held
      rw [rewrote.items, mem_map] at mem
      obtain ⟨source, inside, rfl⟩ := mem
      unfold rewriteAt at heldAfter
      split at heldAfter
      · cases heldAfter
      next kept =>
        refine absurd ?_ kept
        rw [← owned, mem_map]
        exact ⟨source, mem_filter.mpr ⟨inside, heldAfter⟩, rfl⟩
    · rw [Function.update_of_ne here] at standing
      exact ⟨here, standing⟩

theorem requeueAll_invariant (project : ProjectId) (owner : Uuid) (ids : List StreamId)
    (located : ∀ id ∈ ids, InProject s project id)
    (inv : Invariant runtime orderly s floating missing stale) :
    Restreamed s (ids.foldl (requeueOwned owner) s) ∧
      Advances project nobody s (ids.foldl (requeueOwned owner) s) ∧
      Invariant runtime orderly (ids.foldl (requeueOwned owner) s) floating missing
        (fun key => stale key ∨ key = (project, owner)) ∧
      ∀ slot log, (ids.foldl (requeueOwned owner) s).shelf slot = some log → HeldIn log owner →
        s.shelf slot = some log ∧ ∀ id ∈ ids, slotStream s.topics s.queues slot ≠ some id := by
  induction ids generalizing s stale with
  | nil =>
    exact ⟨rfl, .refl project s, inv.weaken (fun _ floats => floats) fun _ => .inl,
      fun _ _ standing _ => ⟨standing, nofun⟩⟩
  | cons id rest ih =>
    obtain ⟨slot, rfl, here⟩ := located id (by simp)
    obtain ⟨frame, advances, after, cleared⟩ := requeueOwned_invariant inv here owner
    obtain ⟨continued, later, final, others⟩ := ih
      (fun other mem => (located other (mem_cons_of_mem _ mem)).restream frame) after
    rw [foldl_cons]
    refine ⟨frame.trans continued, advances.trans later, final.weaken (fun _ floats => floats) ?_, ?_⟩
    · rintro key ((outlived | same) | same)
      · exact .inl outlived
      · exact .inr same
      · exact .inr same
    · intro other log standing held
      obtain ⟨middle, apart⟩ := others other log standing held
      obtain ⟨elsewhere, before⟩ := cleared other log middle held
      refine ⟨before, forall_mem_cons.mpr ⟨?_, ?_⟩⟩
      · intro found
        exact elsewhere (inv.owned.injective found here)
      · intro identifier mem
        have distinct := apart identifier mem
        rw [frame] at distinct
        exact distinct

theorem classicStreams_inProject {project : ProjectId} (mem : id ∈ s.classicStreams project) :
    InProject s project id := by
  obtain ⟨name, queue, rfl, found, _, same⟩ := mem_classicStreams.mp mem
  exact ⟨.queue name, rfl, by simp [slotStream, found, same]⟩

theorem releaseDeliveryLease_settled (settled : Settled runtime orderly s) (project : ProjectId)
    (owner : Uuid) : Settled runtime orderly (s.releaseDeliveryLease project owner) ∧
      Advances project nobody s (s.releaseDeliveryLease project owner) ∧
      ¬ Holds (s.releaseDeliveryLease project owner).shelf project owner := by
  obtain ⟨frame, advances, after, cleared⟩ :=
    requeueAll_invariant project owner (s.classicStreams project)
    (fun _ mem => classicStreams_inProject mem) settled
  -- What the owner still held would be in a classic queue of the project, and all of those were
  -- cleared.
  have idle : ¬ Holds ((s.classicStreams project).foldl (requeueOwned owner) s).shelf
      project owner := by
    rintro ⟨slot, log, within, standing, held⟩
    obtain ⟨before, apart⟩ := cleared slot log standing held
    obtain ⟨name, queue, rfl, found, kind⟩ := settled.classic slot log owner before held
    exact apart queue.stream (mem_classicStreams.mpr ⟨name, queue, within, found, kind, rfl⟩)
      (by simp [slotStream, found])
  refine ⟨?_, advances.trans (removeLease_advances _ project owner), idle⟩
  refine Invariant.weaken { after with leased := after.leased.erase idle } (fun _ floats => floats) ?_
  rintro key ⟨outlived | same, apart⟩
  · exact outlived
  · exact apart same

theorem expireDeliveryLeases_settled (settled : Settled runtime orderly s) (project : ProjectId)
    (now : Int) : Settled runtime orderly (s.expireDeliveryLeases project now) ∧
      Advances project nobody s (s.expireDeliveryLeases project now) := by
  unfold expireDeliveryLeases
  induction s.expiredOwners project now generalizing s with
  | nil => exact ⟨settled, .refl project s⟩
  | cons owner rest ih =>
    obtain ⟨after, advances, _⟩ := releaseDeliveryLease_settled settled project owner
    obtain ⟨final, later⟩ := ih after
    exact ⟨final, advances.trans later⟩

theorem insertLease_advances (s : BrokerStateMachine) (project : ProjectId) (owner : Uuid)
    (deadline : Int) : Advances project nobody s (s.insertLease (project, owner) deadline) :=
  Relet.advances rfl fun apart => getElem?_insert_apart Prod.fst apart

theorem renewDeliveryLease_meets (settled : Settled runtime orderly s) (project : ProjectId)
    (owner : Uuid) (now : Int) : Meets (s.renewDeliveryLease project owner now)
      (fun s' => Settled runtime orderly s' ∧ Advances project nobody s s') Overflow := by
  unfold renewDeliveryLease
  split
  next busy =>
    have holds := (ownerHasUnacked_iff settled.classic).mp busy
    apply Meets.orElse
    · intro _
      simp [Overflow, overflowErrors]
    intro deadline _
    refine ⟨{ settled with leased := (settled.leased.insert (project, owner) _).settle ?_ },
      insertLease_advances s project owner _⟩
    rintro otherProject otherOwner (outlived | same)
    · exact .inr outlived
    · rw [Prod.mk.injEq] at same
      exact .inl (same.1 ▸ same.2 ▸ holds)
  next idle =>
    rw [ownerHasUnacked_iff settled.classic] at idle
    refine ⟨{ settled with leased := (settled.leased.erase idle).settle ?_ },
      removeLease_advances s project owner⟩
    rintro _ _ ⟨outlived, _⟩
    exact .inr outlived

end Requeue

section Discard

variable {orderly : Prop}

theorem discardReady_rewrote (well : StreamWell stream) (id : StreamId) (count : Nat)
    (inside : count ≤ stream.records.items.length) :
    let walked := (List.range count).foldl discardReady ({ id, stream, changes := [] }, 0)
    walked.1.id = id ∧
      Rewrote discarded stream ((stream.records.items.take count).map (·.offset)) walked.1.stream := by
  induction count with
  | zero => exact ⟨rfl, Rewrote.refl well⟩
  | succ count ih =>
    obtain ⟨same, rewrote⟩ := ih (Nat.le_of_succ_le inside)
    rw [range_succ, foldl_append]
    generalize (List.range count).foldl discardReady ({ id, stream, changes := [] }, 0) =
      walked at same rewrote ⊢
    obtain ⟨edit, total⟩ := walked
    have listed : stream.records.items[count]? = some stream.records.items[count] :=
      getElem?_eq_getElem inside
    have mem := mem_of_getElem? listed
    have numbered := well.numbered listed
    have pending : stream.records.items[count].offset ∉ (stream.records.items.take count).map
        (·.offset) := by
      intro repeated
      obtain ⟨other, taken, offset⟩ := mem_map.mp repeated
      obtain ⟨index, found⟩ := mem_iff_getElem?.mp taken
      rw [getElem?_take] at found
      split at found
      next before =>
        have otherNumber := well.numbered found
        omega
      · cases found
    obtain ⟨_, next⟩ := rewrote.set discarded_redelivery mem pending
    have pos : edit.stream.records.head + count = stream.records.items[count].offset := by
      have based := rewrote.well.based
      have base := rewrote.baseOffset
      change edit.stream.baseOffset = stream.baseOffset at base
      change edit.stream.records.head = edit.stream.baseOffset at based
      omega
    have looked : edit.stream.records.values[edit.stream.records.head + count]? =
        some stream.records.items[count] := by
      rw [← rewrote.well.filled.getElem?_items, rewrote.items, getElem?_map, listed, Option.map_some]
      rw [rewriteAt, if_neg pending]
    have step : (discardReady (edit, total) count).1 =
        edit.set stream.records.items[count].offset (discarded stream.records.items[count]) := by
      simp only [discardReady, looked, ← pos, discarded]
      split <;> rfl
    have taken : (stream.records.items.take (count + 1)).map (·.offset) =
        (stream.records.items.take count).map (·.offset) ++ [stream.records.items[count].offset] := by
      rw [take_add_one, listed, map_append]
      rfl
    change (discardReady (edit, total) count).1.id = id ∧
        Rewrote _ _ _ (discardReady (edit, total) count).1.stream
    rw [step, taken]
    exact ⟨same, next⟩

theorem Invariant.hold {after : BrokerStateMachine} {floating : MessageId → Prop} {missing : Nat → Nat}
    {stale : ProjectId × Uuid → Prop} {affected : Uuid → Prop} {slot : Slot} {log : StreamState}
    (inv : Invariant runtime orderly after floating missing
      (fun key => stale key ∨ (key.1 = slot.project ∧ affected key.2)))
    (standing : after.shelf slot = some log) (still : ∀ owner, affected owner → HeldIn log owner) :
    Invariant runtime orderly after floating missing stale := by
  refine { inv with leased := inv.leased.settle ?_ }
  rintro project owner (outlived | ⟨rfl, changed⟩)
  · exact .inr outlived
  · exact .inl ⟨slot, log, rfl, standing, still owner changed⟩

theorem discardReadyRecords_settled (settled : Settled runtime orderly s) {slot : Slot} {id : StreamId}
    (located : slotStream s.topics s.queues slot = some id) :
    Settled runtime orderly (s.discardReadyRecords id).1 ∧
      Advances slot.project nobody s (s.discardReadyRecords id).1 := by
  obtain ⟨stream, here⟩ := settled.stands located
  have well := settled.logs here.standing
  have length : stream.records.items.length = stream.records.size := well.filled.length_items
  obtain ⟨same, rewrote⟩ := discardReady_rewrote well id stream.records.size (Nat.le_of_eq length.symm)
  rw [← length] at same rewrote
  unfold discardReadyRecords
  simp only [here.editStream, ← length]
  generalize (List.range stream.records.items.length).foldl discardReady
    ({ id, stream, changes := [] }, 0) = walked at same rewrote ⊢
  obtain ⟨edit, total⟩ := walked
  have unheld : ∀ ref : StreamReference, ∀ owner consumer tag,
      (discarded ref).delivery = .unacked owner consumer tag →
        ref.delivery = .unacked owner consumer tag := by
    intro ref owner consumer tag held
    unfold discarded at held
    split at held
    · cases held
    · exact held
  have atEdit : At s slot edit.id stream := (show edit.id = id from same).symm ▸ here
  obtain ⟨advances, after⟩ := settled.redeliver nobody atEdit discarded_redelivery rewrote
    fun ref _ _ owner consumer tag held => .inr (unheld ref owner consumer tag held)
  have standing : (s.commitStream edit).shelf slot = some edit.stream := by
    rw [show (s.commitStream edit).shelf = Function.update s.shelf slot (some edit.stream) from
      settled.owned.shelfOf_insert atEdit.slot edit.stream, Function.update_self]
  refine ⟨after.hold standing ?_, advances⟩
  rintro owner ⟨ref, mem, _, owned⟩
  exact (rewrote.heldIn fun other _ _ => discarded_ownedBy other owner).mpr ⟨ref, mem, owned⟩

end Discard

end IronGraph.Broker
