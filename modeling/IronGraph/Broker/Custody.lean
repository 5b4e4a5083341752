import IronGraph.Broker.Accounts

/-!
Who holds a delivered reference. A connection has a delivery lease exactly while it holds a
reference in some classic queue of the project. In the middle of a command a lease in `stale` may
outlive what it was for.
-/

namespace IronGraph.Broker

open Std OrderedMap Option Function

def HeldIn (stream : StreamState) (owner : Uuid) : Prop :=
  ∃ reference ∈ stream.records.items, reference.delivery.ownedBy owner = true

def Holds (shelf : Shelf) (project : ProjectId) (owner : Uuid) : Prop :=
  ∃ slot stream, slot.project = project ∧ shelf slot = some stream ∧ HeldIn stream owner

structure Leased (shelf : Shelf) (leases : ExtTreeMap (ProjectId × Uuid) Int)
    (stale : ProjectId × Uuid → Prop) : Prop where
  lease : ∀ {project owner}, Holds shelf project owner → (project, owner) ∈ leases
  holder : ∀ {project owner}, (project, owner) ∈ leases → Holds shelf project owner ∨
    stale (project, owner)

def ClassicHeld (shelf : Shelf) (queues : ExtTreeMap Name Queue) : Prop :=
  ∀ slot stream owner, shelf slot = some stream → HeldIn stream owner →
    ∃ name queue, slot = .queue name ∧ queues[name]? = some queue ∧ queue.kind = .classic

theorem ownedBy_eq_true {delivery : DeliveryState} {owner : Uuid} :
    delivery.ownedBy owner = true ↔ ∃ consumer tag, delivery = .unacked owner consumer tag := by
  cases delivery <;> simp [DeliveryState.ownedBy]

theorem isUnacked_eq_true {delivery : DeliveryState} :
    delivery.isUnacked = true ↔ ∃ owner, delivery.ownedBy owner = true := by
  cases delivery <;> simp [DeliveryState.isUnacked, DeliveryState.ownedBy]

section Custody

variable {shelf shelf' : Shelf} {leases : ExtTreeMap (ProjectId × Uuid) Int}
  {stale : ProjectId × Uuid → Prop} {owner : Uuid} {slot : Slot} {stream stream' : StreamState}
  {queues queues' : ExtTreeMap Name Queue} (leased : Leased shelf leases stale)
include leased

theorem Leased.insert (key : ProjectId × Uuid) (deadline : Int) :
    Leased shelf (leases.insert key deadline) (fun other => stale other ∨ other = key) := by
  refine ⟨fun holds => ExtTreeMap.mem_insert.mpr (.inr (leased.lease holds)), ?_⟩
  intro project owner has
  rw [ExtTreeMap.mem_insert, LawfulEqCmp.compare_eq_iff_eq] at has
  rcases has with same | before
  · exact .inr (.inr same.symm)
  · exact (leased.holder before).imp_right .inl

theorem Leased.erase {project : ProjectId} (idle : ¬ Holds shelf project owner) :
    Leased shelf (leases.erase (project, owner)) (fun key => stale key ∧ key ≠ (project, owner)) := by
  refine ⟨?_, ?_⟩
  · intro otherProject otherOwner holds
    rw [ExtTreeMap.mem_erase, ne_eq, LawfulEqCmp.compare_eq_iff_eq]
    refine ⟨?_, leased.lease holds⟩
    rintro ⟨rfl, rfl⟩
    exact idle holds
  · intro otherProject otherOwner has
    rw [ExtTreeMap.mem_erase, ne_eq, LawfulEqCmp.compare_eq_iff_eq] at has
    exact (leased.holder has.2).imp_right fun outlived => ⟨outlived, Ne.symm has.1⟩

theorem Leased.settle {stale' : ProjectId × Uuid → Prop}
    (allowed : ∀ project owner, stale (project, owner) → Holds shelf project owner ∨
    stale' (project, owner)) : Leased shelf leases stale' :=
  { leased with holder := fun has => (leased.holder has).elim .inl (allowed _ _) }

theorem Leased.replace (standing : shelf slot = some stream) (lost : Uuid → Prop)
    (gained : ∀ owner, HeldIn stream' owner → HeldIn stream owner ∨ (slot.project, owner) ∈ leases)
    (kept : ∀ owner, HeldIn stream owner → HeldIn stream' owner ∨ lost owner) :
    Leased (update shelf slot (some stream')) leases
      (fun key => stale key ∨ (key.1 = slot.project ∧ lost key.2)) := by
  have after : ∀ {project owner}, Holds shelf project owner →
      Holds (update shelf slot (some stream')) project owner ∨
        (project = slot.project ∧ lost owner) := by
    rintro project owner ⟨other, found, within, standingFound, held⟩
    by_cases here : other = slot
    · subst here
      rw [standing, some.injEq] at standingFound
      rcases kept owner (standingFound ▸ held) with still | left
      · exact .inl ⟨other, stream', within, update_self .., still⟩
      · exact .inr ⟨within.symm, left⟩
    · exact .inl ⟨other, found, within, by rw [update_of_ne here]; exact standingFound, held⟩
  refine ⟨?_, ?_⟩
  · rintro project owner ⟨other, found, within, standingFound, held⟩
    by_cases here : other = slot
    · rw [here, update_self, some.injEq] at standingFound
      subst here standingFound
      rcases gained owner held with before | has
      · exact leased.lease ⟨other, stream, within, standing, before⟩
      · exact within ▸ has
    · rw [update_of_ne here] at standingFound
      exact leased.lease ⟨other, found, within, standingFound, held⟩
  · intro project owner has
    rcases leased.holder has with holds | outlived
    · exact (after holds).imp_right .inr
    · exact .inr (.inl outlived)

omit leased

theorem ClassicHeld.replace (classic : ClassicHeld shelf queues) (standing : shelf slot = some stream)
    (held : ∀ owner, HeldIn stream' owner → HeldIn stream owner ∨
      ∃ name queue, slot = .queue name ∧ queues[name]? = some queue ∧ queue.kind = .classic) :
    ClassicHeld (update shelf slot (some stream')) queues := by
  intro other found owner standingFound heldFound
  by_cases here : other = slot
  · rw [here, update_self, some.injEq] at standingFound
    subst here standingFound
    exact (held owner heldFound).elim (classic _ _ _ standing) id
  · rw [update_of_ne here] at standingFound
    exact classic _ _ _ standingFound heldFound

theorem Leased.withdraw {gone : Slot → Bool} (leased : Leased shelf leases stale)
    (withdrawn : ∀ slot, shelf' slot = bif gone slot then none else shelf slot) :
    Leased shelf' leases (fun key => stale key ∨
      ∃ slot stream, gone slot = true ∧ slot.project = key.1 ∧ shelf slot = some stream ∧
      HeldIn stream key.2) := by
  refine ⟨?_, ?_⟩
  · rintro project owner ⟨slot, stream, within, standing, held⟩
    rw [withdrawn slot] at standing
    cases leaves : gone slot with
    | true => simp [leaves] at standing
    | false => exact leased.lease ⟨slot, stream, within, by simpa [leaves] using standing, held⟩
  · intro project owner has
    rcases leased.holder has with ⟨slot, stream, within, standing, held⟩ | outlived
    · cases leaves : gone slot with
      | true => exact .inr (.inr ⟨slot, stream, leaves, within, standing, held⟩)
      | false => exact .inl ⟨slot, stream, within, by rw [withdrawn slot, leaves]; exact standing, held⟩
    · exact .inr (.inl outlived)

theorem ClassicHeld.withdraw {gone : Slot → Bool} (classic : ClassicHeld shelf queues)
    (withdrawn : ∀ slot, shelf' slot = bif gone slot then none else shelf slot)
    (kept : ∀ {name : Name} {queue : Queue}, gone (.queue name) = false → queues[name]? = some queue →
      queues'[name]? = some queue) : ClassicHeld shelf' queues' := by
  intro slot stream owner standing held
  rw [withdrawn slot] at standing
  cases leaves : gone slot with
  | true => simp [leaves] at standing
  | false =>
    obtain ⟨name, queue, same, found, kind⟩ := classic _ _ _ (by simpa [leaves] using standing) held
    exact ⟨name, queue, same, kept (same ▸ leaves) found, kind⟩

theorem HeldIn.not_empty : ¬ HeldIn StreamState.empty owner := by
  rintro ⟨ref, mem, _⟩
  cases mem

theorem Leased.enlist (leased : Leased shelf leases stale)
    (old : ∀ {slot stream}, shelf slot = some stream → shelf' slot = some stream)
    (new : ∀ {slot stream}, shelf' slot = some stream → shelf slot = some stream ∨
    stream = StreamState.empty) : Leased shelf' leases stale := by
  refine ⟨?_, ?_⟩
  · rintro project owner ⟨slot, stream, within, standing, held⟩
    rcases new standing with before | empty
    · exact leased.lease ⟨slot, stream, within, before, held⟩
    · exact absurd (empty ▸ held) HeldIn.not_empty
  · intro project owner has
    refine (leased.holder has).imp_left ?_
    rintro ⟨slot, stream, within, standing, held⟩
    exact ⟨slot, stream, within, old standing, held⟩

theorem ClassicHeld.enlist (classic : ClassicHeld shelf queues)
    (new : ∀ {slot stream}, shelf' slot = some stream → shelf slot = some stream ∨
      stream = StreamState.empty)
    (kept : ∀ {name : Name} {queue : Queue}, queues[name]? = some queue →
      ∃ queue', queues'[name]? = some queue' ∧ queue'.kind = queue.kind) :
      ClassicHeld shelf' queues' := by
  intro slot stream owner standing held
  rcases new standing with before | empty
  · obtain ⟨name, queue, same, found, kind⟩ := classic _ _ _ before held
    obtain ⟨queue', found', kind'⟩ := kept found
    exact ⟨name, queue', same, found', kind'.trans kind⟩
  · exact absurd (empty ▸ held) HeldIn.not_empty

theorem Rewrote.heldIn {rewrite : StreamReference → StreamReference} {before : StreamState}
    {offsets : List Nat} {after : StreamState} (rewrote : Rewrote rewrite before offsets after)
    (same : ∀ ref ∈ before.records.items, ref.offset ∈ offsets →
      (rewrite ref).delivery.ownedBy owner = ref.delivery.ownedBy owner) :
    HeldIn after owner ↔ HeldIn before owner := by
  have unchanged : ∀ ref ∈ before.records.items,
      (rewriteAt rewrite offsets ref).delivery.ownedBy owner = ref.delivery.ownedBy owner := by
    intro ref mem
    unfold rewriteAt
    split
    next changed => exact same ref mem changed
    · rfl
  unfold HeldIn
  rw [rewrote.items]
  simp only [List.mem_map, exists_exists_and_eq_and]
  constructor
  · rintro ⟨ref, mem, held⟩
    exact ⟨ref, mem, (unchanged ref mem).symm.trans held⟩
  · rintro ⟨ref, mem, held⟩
    exact ⟨ref, mem, (unchanged ref mem).trans held⟩

end Custody

end IronGraph.Broker
