import IronGraph.Broker.ValidateState

/-!
Who owns which stream: a slot is a partition of a topic, or a queue. The shelf of a state gives the
stream standing in each slot, and the rest of the development reads streams through it.
-/

namespace IronGraph.Broker

open Std OrderedMap Option Function StreamState

inductive Slot where
  | partition (name : Name) (index : Nat)
  | queue (name : Name)
deriving DecidableEq

def Slot.name : Slot → Name
  | .partition name _ => name
  | .queue name => name

def Slot.project (slot : Slot) : ProjectId := slot.name.1

section

variable (topics : ExtTreeMap Name Topic) (queues : ExtTreeMap Name Queue)

def slotStream : Slot → Option StreamId
  | .partition name index => topics[name]?.bind fun topic => topic.partitions[index]?
  | .queue name => queues[name]?.map (·.stream)

abbrev Shelf := Slot → Option StreamState

def shelfOf (streams : ExtTreeMap StreamId StreamState) : Shelf :=
  fun slot => (slotStream topics queues slot).bind fun id => streams[id]?

end

def BrokerStateMachine.shelf (s : BrokerStateMachine) : Shelf := shelfOf s.topics s.queues s.streams

/-- Every stream stands in exactly one slot, and the allocator has passed all of them. -/
structure Owned (topics : ExtTreeMap Name Topic) (queues : ExtTreeMap Name Queue)
    (streams : ExtTreeMap StreamId StreamState) (nextStreamId : Nat) : Prop where
  injective : ∀ {first second id}, slotStream topics queues first = some id →
    slotStream topics queues second = some id → first = second
  declared : ∀ {slot id}, slotStream topics queues slot = some id → ∃ stream, streams[id]? = some stream
  slotted : ∀ {id stream}, streams[id]? = some stream → ∃ slot, slotStream topics queues slot = some id
  numbered : ∀ {id stream}, streams[id]? = some stream → id ≤ nextStreamId

section Owned

theorem empty_owned : Owned ∅ ∅ ∅ 0 := by
  refine ⟨?_, ?_, nofun, nofun⟩
  · intro first second id found
    cases first <;> simp [slotStream] at found
  · intro slot id found
    cases slot <;> simp [slotStream] at found

variable {id : StreamId}

variable {slot : Slot} {topics topics' : ExtTreeMap Name Topic}
  {queues queues' : ExtTreeMap Name Queue} {streams streams' : ExtTreeMap StreamId StreamState}
  {stream : StreamState} {gone fresh : Slot → Bool} {next' : Nat}

theorem shelfOf_eq_some : shelfOf topics queues streams slot = some stream ↔
      ∃ id, slotStream topics queues slot = some id ∧ streams[id]? = some stream := by
  simp [shelfOf, bind_eq_some_iff]

section

variable {next : Nat} (owned : Owned topics queues streams next)
  (here : slotStream topics queues slot = some id) (stream : StreamState)
include owned here

theorem Owned.shelfOf_insert : shelfOf topics queues (streams.insert id stream) =
      update (shelfOf topics queues streams) slot (some stream) := by
  funext other
  unfold shelfOf
  by_cases same : other = slot
  · subst same
    simp [here]
  · rw [update_of_ne same]
    cases found : slotStream topics queues other with
    | none => rfl
    | some otherId =>
      have apart : id ≠ otherId := fun equal => same (owned.injective found (equal ▸ here))
      simp [getElem?_insert, apart]

theorem Owned.insert : Owned topics queues (streams.insert id stream) next := by
  refine ⟨owned.injective, ?_, ?_, ?_⟩
  · intro other otherId found
    obtain ⟨old, has⟩ := owned.declared found
    rw [getElem?_insert]
    split
    · exact ⟨stream, rfl⟩
    · exact ⟨old, has⟩
  · intro otherId found has
    rw [getElem?_insert] at has
    split at has
    next same => exact ⟨slot, same ▸ here⟩
    · exact owned.slotted has
  · intro otherId found has
    rw [getElem?_insert] at has
    split at has
    next same =>
      obtain ⟨old, before⟩ := owned.declared here
      exact same ▸ owned.numbered before
    · exact owned.numbered has

end

structure Withdrawn (topics topics' : ExtTreeMap Name Topic) (queues queues' : ExtTreeMap Name Queue)
    (streams streams' : ExtTreeMap StreamId StreamState) (gone : Slot → Bool) : Prop where
  slots : ∀ slot, slotStream topics' queues' slot = bif gone slot then none
    else slotStream topics queues slot
  removed : ∀ {slot id}, gone slot = true → slotStream topics queues slot = some id →
    streams'[id]? = none
  kept : ∀ {id}, (∀ slot, gone slot = true → slotStream topics queues slot ≠ some id) →
    streams'[id]? = streams[id]?

theorem Withdrawn.still {next : Nat}
    (withdrawn : Withdrawn topics topics' queues queues' streams streams' gone)
    (owned : Owned topics queues streams next) (stays : gone slot = false)
    (here : slotStream topics queues slot = some id) : streams'[id]? = streams[id]? := by
  apply withdrawn.kept
  intro other leaves found
  rw [owned.injective found here, stays] at leaves
  cases leaves

theorem Withdrawn.stays (withdrawn : Withdrawn topics topics' queues queues' streams streams' gone)
    (found : slotStream topics' queues' slot = some id) :
    gone slot = false ∧ slotStream topics queues slot = some id := by
  rw [withdrawn.slots slot] at found
  cases leaves : gone slot with
  | true => simp [leaves] at found
  | false => exact ⟨rfl, by simpa [leaves] using found⟩

variable {next : Nat} (owned : Owned topics queues streams next)
  (withdrawn : Withdrawn topics topics' queues queues' streams streams' gone)
include owned withdrawn

theorem Owned.withdraw : Owned topics' queues' streams' next := by
  -- A stream that is still there was there before, in a slot that stays.
  have before : ∀ {id : StreamId} {stream}, streams'[id]? = some stream →
      ∃ slot, gone slot = false ∧ slotStream topics queues slot = some id ∧
        streams[id]? = some stream := by
    intro id stream has
    by_cases leaving : ∃ slot, gone slot = true ∧ slotStream topics queues slot = some id
    · obtain ⟨slot, leaves, found⟩ := leaving
      rw [withdrawn.removed leaves found] at has
      cases has
    · have same := withdrawn.kept fun slot leaves found => leaving ⟨slot, leaves, found⟩
      rw [same] at has
      obtain ⟨slot, found⟩ := owned.slotted has
      refine ⟨slot, ?_, found, has⟩
      cases leaves : gone slot with
      | true => exact absurd ⟨slot, leaves, found⟩ leaving
      | false => rfl
  refine ⟨?_, ?_, ?_, ?_⟩
  · intro first second id foundFirst foundSecond
    exact owned.injective (withdrawn.stays foundFirst).2 (withdrawn.stays foundSecond).2
  · intro slot id found
    obtain ⟨stays, here⟩ := withdrawn.stays found
    rw [withdrawn.still owned stays here]
    exact owned.declared here
  · intro id stream has
    obtain ⟨slot, stays, found, _⟩ := before has
    exact ⟨slot, by rw [withdrawn.slots, stays]; exact found⟩
  · intro id stream has
    obtain ⟨_, _, _, was⟩ := before has
    exact owned.numbered was

theorem Owned.shelfOf_withdraw (slot : Slot) :
    shelfOf topics' queues' streams' slot = bif gone slot then none
      else shelfOf topics queues streams slot := by
  unfold shelfOf
  rw [withdrawn.slots slot]
  cases leaves : gone slot with
  | true => rfl
  | false =>
    cases found : slotStream topics queues slot with
    | none => rfl
    | some id => exact withdrawn.still owned leaves found

omit owned withdrawn

structure Enlisted (topics topics' : ExtTreeMap Name Topic) (queues queues' : ExtTreeMap Name Queue)
    (streams streams' : ExtTreeMap StreamId StreamState) (next next' : Nat)
    (fresh : Slot → Bool) : Prop where
  advanced : next ≤ next'
  vacant : ∀ {slot}, fresh slot = true → slotStream topics queues slot = none
  slots : ∀ {slot}, fresh slot = false → slotStream topics' queues' slot = slotStream topics queues slot
  allocated : ∀ {slot id}, fresh slot = true → slotStream topics' queues' slot = some id →
    next < id ∧ id ≤ next' ∧ streams'[id]? = some empty
  apart : ∀ {first second id}, fresh first = true → fresh second = true →
    slotStream topics' queues' first = some id → slotStream topics' queues' second = some id →
      first = second
  old : ∀ {id}, id ≤ next → streams'[id]? = streams[id]?
  new : ∀ {id stream}, next < id → streams'[id]? = some stream →
    ∃ slot, fresh slot = true ∧ slotStream topics' queues' slot = some id

theorem Enlisted.still
    (enlisted : Enlisted topics topics' queues queues' streams streams' next next' fresh)
    (owned : Owned topics queues streams next) (here : slotStream topics queues slot = some id) :
    id ≤ next ∧ streams'[id]? = streams[id]? := by
  obtain ⟨stream, found⟩ := owned.declared here
  have bounded := owned.numbered found
  exact ⟨bounded, enlisted.old bounded⟩

section

variable (owned : Owned topics queues streams next)
  (enlisted : Enlisted topics topics' queues queues' streams streams' next next' fresh)

include owned enlisted

theorem Owned.enlist : Owned topics' queues' streams' next' := by
  -- Old identifiers lie below the old cursor and new ones above it, so they never meet.
  have bounded : ∀ {slot id}, fresh slot = false → slotStream topics' queues' slot = some id →
      slotStream topics queues slot = some id ∧ id ≤ next := by
    intro slot id stays found
    rw [enlisted.slots stays] at found
    exact ⟨found, (enlisted.still owned found).1⟩
  refine ⟨?_, ?_, ?_, ?_⟩
  · intro first second id foundFirst foundSecond
    cases newFirst : fresh first with
    | true =>
      have above := (enlisted.allocated newFirst foundFirst).1
      cases newSecond : fresh second with
      | true => exact enlisted.apart newFirst newSecond foundFirst foundSecond
      | false => exact absurd (bounded newSecond foundSecond).2 (Nat.not_le.mpr above)
    | false =>
      have below := bounded newFirst foundFirst
      cases newSecond : fresh second with
      | true => exact absurd below.2 (Nat.not_le.mpr (enlisted.allocated newSecond foundSecond).1)
      | false => exact owned.injective below.1 (bounded newSecond foundSecond).1
  · intro slot id found
    cases new : fresh slot with
    | true => exact ⟨_, (enlisted.allocated new found).2.2⟩
    | false =>
      have below := bounded new found
      rw [enlisted.old below.2]
      exact owned.declared below.1
  · intro id stream has
    by_cases below : id ≤ next
    · rw [enlisted.old below] at has
      obtain ⟨slot, found⟩ := owned.slotted has
      refine ⟨slot, ?_⟩
      rw [enlisted.slots, found]
      cases new : fresh slot with
      | true =>
        rw [enlisted.vacant new] at found
        cases found
      | false => rfl
    · obtain ⟨slot, _, found⟩ := enlisted.new (Nat.lt_of_not_le below) has
      exact ⟨slot, found⟩
  · intro id stream has
    by_cases below : id ≤ next
    · exact Nat.le_trans below enlisted.advanced
    · obtain ⟨slot, new, found⟩ := enlisted.new (Nat.lt_of_not_le below) has
      exact (enlisted.allocated new found).2.1

theorem Owned.shelfOf_enlist (standing : shelfOf topics' queues' streams' slot = some stream) :
    shelfOf topics queues streams slot = some stream ∨
      (fresh slot = true ∧ shelfOf topics queues streams slot = none ∧ stream = empty) := by
  obtain ⟨id, found, has⟩ := shelfOf_eq_some.mp standing
  cases new : fresh slot with
  | true =>
    rw [(enlisted.allocated new found).2.2, some.injEq] at has
    exact .inr ⟨rfl, by simp [shelfOf, enlisted.vacant new], has.symm⟩
  | false =>
    rw [enlisted.slots new] at found
    rw [(enlisted.still owned found).2] at has
    exact .inl (shelfOf_eq_some.mpr ⟨id, found, has⟩)

theorem Owned.shelfOf_enlisted (standing : shelfOf topics queues streams slot = some stream) :
    shelfOf topics' queues' streams' slot = some stream := by
  obtain ⟨id, found, has⟩ := shelfOf_eq_some.mp standing
  rw [shelfOf_eq_some]
  refine ⟨id, ?_, by rw [(enlisted.still owned found).2]; exact has⟩
  rw [enlisted.slots, found]
  cases new : fresh slot with
  | true =>
    rw [enlisted.vacant new] at found
    cases found
  | false => rfl

end

end Owned

end IronGraph.Broker
