import IronGraph.Library.Census
import IronGraph.Broker.StreamLog

/-!
Bookkeeping of payloads: every reference on the shelf is backed by a payload of its project, every
stream knows the bytes it retains, every payload is referred to, and every segment counts its
payloads. In the middle of a command messages in `floating` need not be referred to, and a segment
may be owed `missing` payloads.
-/

namespace IronGraph.Broker

open Std Outcome OrderedMap BrokerStateMachine Option

structure Ledger where
  payloads : ExtTreeMap MessageId StoredPayloadRecord
  segments : ExtTreeMap Nat BrokerPayloadSegment
  lastMessage : Nat
  lastSegment : Nat

def BrokerStateMachine.ledger (s : BrokerStateMachine) : Ledger :=
  { payloads := s.payloads
    segments := s.payloadSegments
    lastMessage := s.nextMessageId
    lastSegment := s.nextPayloadSegmentId }

variable {project : ProjectId} {runtime : Runtime} {payload : StoredPayloadRecord}

namespace Ledger

def billed (ledger : Ledger) (message : MessageId) : Option (ProjectId × Nat) :=
  ledger.payloads[message]?.bind fun payload =>
    ledger.segments[payload.segment]?.bind fun segment =>
      segment.descriptor.projectId.map fun project =>
        (project, payload.retainedBytes + segment.sharedIngressBytes)

def bill (ledger : Ledger) (message : MessageId) : Nat := ((ledger.billed message).map (·.2)).getD 0

def release (segments : ExtTreeMap Nat BrokerPayloadSegment) (id : Nat)
    (segment : BrokerPayloadSegment) : ExtTreeMap Nat BrokerPayloadSegment :=
  let segments := segments.insert id { segment with liveRecords := segment.liveRecords - 1 }
  if segment.liveRecords - 1 = 0 then segments.erase id else segments

variable {bytes : Nat}

theorem billed_eq_some {ledger : Ledger} {msg : MessageId} : ledger.billed msg = some (project, bytes) ↔
      ∃ payload segment, ledger.payloads[msg]? = some payload ∧
        ledger.segments[payload.segment]? = some segment ∧ segment.descriptor.projectId = some project ∧
        payload.retainedBytes + segment.sharedIngressBytes = bytes := by
  simp only [billed, bind_eq_some_iff, map_eq_some_iff, Prod.mk.injEq]
  constructor
  · rintro ⟨payload, found, segment, has, project, scope, same, total⟩
    exact ⟨payload, segment, found, has, same ▸ scope, total⟩
  · rintro ⟨payload, segment, found, has, scope, total⟩
    exact ⟨payload, found, segment, has, project, scope, rfl, total⟩

theorem bill_of_billed {ledger : Ledger} {msg : MessageId}
    (known : ledger.billed msg = some (project, bytes)) : ledger.bill msg = bytes := by
  simp [bill, known]

theorem getElem?_release (segs : ExtTreeMap Nat BrokerPayloadSegment) (id other : Nat)
    (segment : BrokerPayloadSegment) : (release segs id segment)[other]? =
      if id = other then
        if segment.liveRecords - 1 = 0 then none
        else some { segment with liveRecords := segment.liveRecords - 1 }
      else segs[other]? := by
  unfold release
  by_cases last : segment.liveRecords - 1 = 0
  · simp only [last, if_true, getElem?_erase, getElem?_insert]
    split <;> rfl
  · simp only [last, if_false, getElem?_insert]

end Ledger

def Refers (shelf : Shelf) (slot : Slot) (message : MessageId) : Prop :=
  ∃ stream, shelf slot = some stream ∧ message ∈ stream.messages

def loadRecord (runtime : Runtime) (segment : BrokerPayloadSegment) (stored : StoredPayloadRecord) :
    Result PayloadSegmentRecord := do
  let record ← runtime.readRecordAt segment.descriptor stored.location
  let payload ← materializeStoredPayload runtime record stored segment
  validateLoadedPayload runtime stored segment.descriptor payload
  return payload

/-- A payload lies within its segment, in the scope of a project, and can be read back from it. -/
structure Housed (runtime : Runtime) (project : ProjectId) (payload : StoredPayloadRecord)
    (segment : BrokerPayloadSegment) : Prop where
  scope : payloadInScope project payload segment = true
  readable : ∃ loaded, loadRecord runtime segment payload = .ok loaded

section

variable {segment : BrokerPayloadSegment}
  (housed : Housed runtime project payload segment)

include housed

theorem Housed.recount (liveRecords : Nat) :
    Housed runtime project payload { segment with liveRecords := liveRecords } :=
  ⟨housed.scope, housed.readable⟩

theorem Housed.projectId : segment.descriptor.projectId = some project := by
  have scope := housed.scope
  simp only [payloadInScope, Bool.and_eq_true, beq_iff_eq] at scope
  exact scope.1.1.1.1.2

end

structure Accounts (runtime : Runtime) (shelf : Shelf) (ledger : Ledger) (floating : MessageId → Prop)
    (missing : Nat → Nat) : Prop where
  backed : ∀ {slot message}, Refers shelf slot message →
    ∃ bytes, ledger.billed message = some (slot.project, bytes)
  balanced : ∀ {slot stream}, shelf slot = some stream →
    stream.retainedBytes = (stream.messages.map ledger.bill).sum
  affordable : ∀ {slot stream}, shelf slot = some stream → stream.retainedBytes < u64Limit
  covered : ∀ {message : MessageId} {payload : StoredPayloadRecord},
    ledger.payloads[message]? = some payload → floating message ∨ ∃ slot, Refers shelf slot message
  identified : ∀ {message : Nat} {payload : StoredPayloadRecord},
    ledger.payloads[message]? = some payload → payload.id = message ∧ message ≤ ledger.lastMessage
  housed : ∀ {message : MessageId} {payload : StoredPayloadRecord},
    ledger.payloads[message]? = some payload → ∃ segment project,
      ledger.segments[payload.segment]? = some segment ∧ Housed runtime project payload segment
  counted : ∀ {id : Nat} {segment : BrokerPayloadSegment}, ledger.segments[id]? = some segment →
    segment.liveRecords = census ledger.payloads (fun payload => payload.segment == id) + missing id
  labelled : ∀ {id : Nat} {segment : BrokerPayloadSegment}, ledger.segments[id]? = some segment →
    segment.id = id ∧ id ≤ ledger.lastSegment ∧ segment.liveRecords ≠ 0 ∧ segment.liveRecords ≤ u32Max

section Accounts

variable {shelf shelf' : Shelf} {ledger ledger' : Ledger} {floating' : MessageId → Prop}
  {slot : Slot} {msg : MessageId} {stream : StreamState} {seg : BrokerPayloadSegment}

theorem Accounts.of_bare {floating : MessageId → Prop} {missing : Nat → Nat}
    (bare : ∀ slot, shelf slot = none) (noPayload : ∀ msg : MessageId, ledger.payloads[msg]? = none)
    (noSegment : ∀ id : Nat, ledger.segments[id]? = none) :
    Accounts runtime shelf ledger floating missing := by
  refine ⟨?_, ?_, ?_, ?_, ?_, ?_, ?_, ?_⟩
  · rintro slot msg ⟨stream, standing, _⟩
    simp [bare] at standing
  all_goals intros; simp_all

variable {floating : MessageId → Prop} {missing : Nat → Nat}
  (accounts : Accounts runtime shelf ledger floating missing)
include accounts

theorem Accounts.reshelve (backed : ∀ {slot msg}, Refers shelf' slot msg →
      ∃ bytes, ledger.billed msg = some (slot.project, bytes))
    (balanced : ∀ {slot stream}, shelf' slot = some stream →
      stream.retainedBytes = (stream.messages.map ledger.bill).sum ∧ stream.retainedBytes < u64Limit)
    (covered : ∀ {msg}, floating msg ∨ (∃ slot, Refers shelf slot msg) →
      floating' msg ∨ ∃ slot, Refers shelf' slot msg) :
      Accounts runtime shelf' ledger floating' missing :=
  ⟨backed, fun standing => (balanced standing).1, fun standing => (balanced standing).2,
    fun has => covered (accounts.covered has), accounts.identified, accounts.housed, accounts.counted,
    accounts.labelled⟩

theorem Accounts.settle (allowed : ∀ msg, floating msg → floating' msg ∨
    ∃ slot, Refers shelf slot msg) : Accounts runtime shelf ledger floating' missing :=
  { accounts with covered := fun has => (accounts.covered has).elim (allowed _) .inr }

theorem Accounts.stored (referred : Refers shelf slot msg) :
    ∃ payload segment, ledger.payloads[msg]? = some payload ∧
      ledger.segments[payload.segment]? = some segment ∧ Housed runtime slot.project payload segment ∧
      payload.id = msg ∧
      payload.retainedBytes + segment.sharedIngressBytes = ledger.bill msg := by
  obtain ⟨bytes, known⟩ := accounts.backed referred
  obtain ⟨payload, segment, found, has, scope, total⟩ := Ledger.billed_eq_some.mp known
  obtain ⟨owner, project, housing, housed⟩ := accounts.housed found
  rw [has, some.injEq] at housing
  subst housing
  have same : slot.project = project := by
    rw [housed.projectId, some.injEq] at scope
    exact scope.symm
  exact ⟨payload, segment, found, has, same ▸ housed, (accounts.identified found).1,
    total.trans (Ledger.bill_of_billed known).symm⟩

theorem Accounts.rebalance (same : ∀ {slot msg}, Refers shelf slot msg →
    ledger'.billed msg = ledger.billed msg)
    (standing : shelf slot = some stream) :
    stream.retainedBytes = (stream.messages.map ledger'.bill).sum := by
  rw [accounts.balanced standing]
  congr 1
  apply List.map_congr_left
  intro msg mem
  simp only [Ledger.bill, same ⟨stream, standing, mem⟩]

theorem Accounts.remove
    (found : ledger.payloads[msg]? = some payload) (has : ledger.segments[payload.segment]? = some seg)
    (unreferred : ∀ slot, ¬ Refers shelf slot msg) : Accounts runtime shelf
      { ledger with
        payloads := ledger.payloads.erase msg
        segments := Ledger.release ledger.segments payload.segment seg }
      (fun other => floating other ∧ other ≠ msg) missing := by
  have fewer := census_erase found (fun other => other.segment == payload.segment)
  simp only [beq_self_eq_true, if_true] at fewer
  have counted := accounts.counted has
  have labelled := accounts.labelled has
  -- Another payload of the seg keeps the seg alive.
  have kept : ∀ {other : MessageId} {record : StoredPayloadRecord},
      (ledger.payloads.erase msg)[other]? = some record → record.segment = payload.segment →
      seg.liveRecords - 1 ≠ 0 := by
    intro other record remains same
    have positive : 0 < census (ledger.payloads.erase msg) (fun other =>
        other.segment == payload.segment) :=
      census_pos_iff.mpr ⟨other, record, remains, by simp [same]⟩
    omega
  have remaining : ∀ {other : MessageId} {record : StoredPayloadRecord},
      (ledger.payloads.erase msg)[other]? = some record →
      other ≠ msg ∧ ledger.payloads[other]? = some record := by
    intro other record remains
    obtain ⟨apart, remains⟩ := erase_eq_some.mp remains
    exact ⟨Ne.symm apart, remains⟩
  have same : ∀ {slot other}, Refers shelf slot other →
      ({ ledger with
          payloads := ledger.payloads.erase msg
          segments := Ledger.release ledger.segments payload.segment seg } : Ledger).billed other =
        ledger.billed other := by
    intro slot other referred
    have apart : msg ≠ other := fun equal => unreferred slot (equal ▸ referred)
    obtain ⟨record, owner, recorded, owned, housed, _⟩ := accounts.stored referred
    have remains : (ledger.payloads.erase msg)[other]? = some record := by
      rw [getElem?_erase, if_neg apart, recorded]
    unfold Ledger.billed
    simp only [remains, recorded, owned, Option.bind_some, Ledger.getElem?_release]
    split
    next shared =>
      rw [← shared, has, some.injEq] at owned
      rw [if_neg (kept remains shared.symm), ← owned]
      rfl
    · rfl
  refine ⟨?_, accounts.rebalance same, accounts.affordable, ?_, ?_, ?_, ?_, ?_⟩
  · intro slot other referred
    rw [same referred]
    exact accounts.backed referred
  · intro other record remains
    obtain ⟨apart, recorded⟩ := remaining remains
    exact (accounts.covered recorded).imp_left fun floats => ⟨floats, apart⟩
  · intro other record remains
    exact accounts.identified (remaining remains).2
  · intro other record remains
    obtain ⟨owner, project, owned, housed⟩ := accounts.housed (remaining remains).2
    simp only [Ledger.getElem?_release]
    split
    next shared =>
      rw [← shared, has, some.injEq] at owned
      rw [if_neg (kept remains shared.symm)]
      exact ⟨_, project, rfl, (owned ▸ housed).recount _⟩
    · exact ⟨owner, project, owned, housed⟩
  · intro id owner owned
    simp only [Ledger.getElem?_release] at owned
    split at owned
    next shared =>
      subst shared
      split at owned
      · cases owned
      · rw [some.injEq] at owned
        subst owned
        simp only
        omega
    next apart =>
      have others := census_erase found (fun other => other.segment == id)
      simp only [beq_iff_eq, apart, if_false, Nat.add_zero] at others
      rw [accounts.counted owned, others]
  · intro id owner owned
    simp only [Ledger.getElem?_release] at owned
    split at owned
    next shared =>
      subst shared
      split at owned
      · cases owned
      next left =>
        rw [some.injEq] at owned
        subst owned
        exact ⟨labelled.1, labelled.2.1, left, Nat.le_trans (Nat.sub_le _ _) labelled.2.2.2⟩
    · exact accounts.labelled owned

omit accounts

def owed (id count : Nat) : Nat → Nat := fun other => if other = id then count else 0

theorem owed_zero (id : Nat) : owed id 0 = fun _ => 0 := by
  funext other
  simp [owed]

theorem Accounts.openSegment (accounts : Accounts runtime shelf ledger floating (fun _ => 0))
    (segment : BrokerPayloadSegment) (fresh : ledger.lastSegment + 1 = segment.id)
    (live : segment.liveRecords ≠ 0) (bounded : segment.liveRecords ≤ u32Max) : Accounts runtime shelf
      { ledger with segments := ledger.segments.insert segment.id segment, lastSegment := segment.id }
      floating (owed segment.id segment.liveRecords) := by
  have apart : ∀ {msg : MessageId} {payload : StoredPayloadRecord},
      ledger.payloads[msg]? = some payload → segment.id ≠ payload.segment := by
    intro msg payload found equal
    obtain ⟨owner, _, owned, _⟩ := accounts.housed found
    have bound := (accounts.labelled owned).2.1
    omega
  have same : ∀ msg, ({ ledger with
      segments := ledger.segments.insert segment.id segment, lastSegment :=
        segment.id } : Ledger).billed msg =
        ledger.billed msg := by
    intro msg
    unfold Ledger.billed
    cases found : ledger.payloads[msg]? with
    | none => rfl
    | some payload => simp only [bind_some, getElem?_insert, if_neg (apart found)]
  refine ⟨?_, accounts.rebalance fun _ => same _, accounts.affordable, accounts.covered,
    accounts.identified, ?_, ?_, ?_⟩
  · intro slot msg referred
    rw [same]
    exact accounts.backed referred
  · intro msg payload found
    rw [getElem?_insert, if_neg (apart found)]
    exact accounts.housed found
  · intro id owner owned
    rcases insert_eq_some.mp owned with ⟨rfl, rfl⟩ | ⟨elsewhere, owned⟩
    · have nothing : census ledger.payloads (fun payload => payload.segment == segment.id) = 0 := by
        rw [← Nat.le_zero, ← Nat.not_lt, census_pos_iff]
        rintro ⟨msg, payload, found, inside⟩
        exact apart found (beq_iff_eq.mp inside).symm
      simp [owed, nothing]
    · rw [accounts.counted owned]
      simp [owed, Ne.symm elsewhere]
  · intro id owner owned
    rcases insert_eq_some.mp owned with ⟨rfl, rfl⟩ | ⟨_, owned⟩
    · exact ⟨rfl, Nat.le_refl _, live, bounded⟩
    · obtain ⟨label, bound, rest⟩ := accounts.labelled owned
      exact ⟨label, by simp only; omega, rest⟩

theorem Accounts.allocate {id count : Nat}
    (accounts : Accounts runtime shelf ledger floating (owed id (count + 1)))
    {payload : StoredPayloadRecord} (fresh : ledger.lastMessage + 1 = payload.id)
    (inside : payload.segment = id)
    (has : ledger.segments[id]? = some seg) (housed : Housed runtime project payload seg) :
    Accounts runtime shelf
      { ledger with payloads := ledger.payloads.insert payload.id payload, lastMessage := payload.id }
      (fun msg => floating msg ∨ msg = payload.id) (owed id count) := by
  have absent : ledger.payloads[payload.id]? = none := by
    cases found : ledger.payloads[payload.id]? with
    | none => rfl
    | some old =>
      have bound := (accounts.identified found).2
      omega
  have same : ∀ {slot msg}, Refers shelf slot msg → ({ ledger with
      payloads := ledger.payloads.insert payload.id payload, lastMessage :=
        payload.id } : Ledger).billed msg =
        ledger.billed msg := by
    intro slot msg referred
    obtain ⟨record, _, recorded, _⟩ := accounts.stored referred
    have apart : payload.id ≠ msg := fun equal => by simp [← equal, absent] at recorded
    unfold Ledger.billed
    simp only [getElem?_insert, if_neg apart]
  refine ⟨?_, accounts.rebalance same, accounts.affordable, ?_, ?_, ?_, ?_, accounts.labelled⟩
  · intro slot msg referred
    rw [same referred]
    exact accounts.backed referred
  · intro msg record found
    rcases insert_eq_some.mp found with ⟨here, _⟩ | ⟨_, found⟩
    · exact .inl (.inr here.symm)
    · exact (accounts.covered found).imp_left .inl
  · intro msg record found
    rcases insert_eq_some.mp found with ⟨here, found⟩ | ⟨_, found⟩
    · exact ⟨found ▸ here, Nat.le_of_eq here.symm⟩
    · obtain ⟨label, bound⟩ := accounts.identified found
      exact ⟨label, by simp only; omega⟩
  · intro msg record found
    rcases insert_eq_some.mp found with ⟨_, rfl⟩ | ⟨_, found⟩
    · exact ⟨seg, project, by rw [inside]; exact has, housed⟩
    · exact accounts.housed found
  · intro other owner owned
    have before := accounts.counted owned
    have more : census (ledger.payloads.insert payload.id payload) (fun payload =>
        payload.segment == other) = census ledger.payloads (fun payload =>
          payload.segment == other) + if id == other then 1 else 0 := by
      rw [census_insert absent, inside]
    rw [before, more]
    by_cases here : other = id
    · simp [owed, here]
      omega
    · simp [owed, here, Ne.symm here]

theorem refers_update {other : Slot} : Refers (Function.update shelf slot (some stream)) other msg ↔
      if other = slot then msg ∈ stream.messages else Refers shelf other msg := by
  unfold Refers
  by_cases same : other = slot
  · subst same
    simp
  · simp [same]

theorem Accounts.replace {stream' : StreamState}
    (accounts : Accounts runtime shelf ledger floating missing)
    (standing : shelf slot = some stream) (known : ∀ msg ∈ stream'.messages, msg ∈ stream.messages ∨
      ∃ bytes, ledger.billed msg = some (slot.project, bytes))
    (balanced : stream'.retainedBytes = (stream'.messages.map ledger.bill).sum)
    (affordable : stream'.retainedBytes < u64Limit)
    (covered : ∀ msg, floating msg ∨ msg ∈ stream.messages →
      floating' msg ∨ msg ∈ stream'.messages) :
    Accounts runtime (Function.update shelf slot (some stream')) ledger floating' missing := by
  have here : ∀ {msg}, msg ∈ stream'.messages →
      ∃ other, Refers (Function.update shelf slot (some stream')) other msg :=
    fun mem => ⟨slot, refers_update.mpr (by simpa using mem)⟩
  apply accounts.reshelve
  · intro other msg referred
    rw [refers_update] at referred
    split at referred
    next same =>
      rw [same]
      exact (known msg referred).elim (fun old => accounts.backed ⟨stream, standing, old⟩) id
    · exact accounts.backed referred
  · intro other found standingFound
    by_cases same : other = slot
    · rw [same, Function.update_self, some.injEq] at standingFound
      exact standingFound ▸ ⟨balanced, affordable⟩
    · rw [Function.update_of_ne same] at standingFound
      exact ⟨accounts.balanced standingFound, accounts.affordable standingFound⟩
  · rintro msg (floats | ⟨other, referred⟩)
    · exact (covered msg (.inl floats)).imp_right here
    · by_cases same : other = slot
      · subst same
        obtain ⟨found, standingFound, mem⟩ := referred
        rw [standing, some.injEq] at standingFound
        exact (covered msg (.inr (standingFound ▸ mem))).imp_right here
      · exact .inr ⟨other, refers_update.mpr (by simpa [same] using referred)⟩

theorem Accounts.withdraw {gone : Slot → Bool}
    (accounts : Accounts runtime shelf ledger floating missing)
    (withdrawn : ∀ slot, shelf' slot = bif gone slot then none else shelf slot) :
    Accounts runtime shelf' ledger
      (fun msg => floating msg ∨ ∃ slot, gone slot = true ∧ Refers shelf slot msg) missing := by
  have stays : ∀ {slot stream}, shelf' slot = some stream → gone slot = false ∧
      shelf slot = some stream := by
    intro slot stream standing
    rw [withdrawn slot] at standing
    cases leaves : gone slot with
    | true => simp [leaves] at standing
    | false => exact ⟨rfl, by simpa [leaves] using standing⟩
  apply accounts.reshelve
  · rintro slot msg ⟨stream, standing, mem⟩
    exact accounts.backed ⟨stream, (stays standing).2, mem⟩
  · intro slot stream standing
    exact ⟨accounts.balanced (stays standing).2, accounts.affordable (stays standing).2⟩
  · rintro msg (floats | ⟨slot, referred⟩)
    · exact .inl (.inl floats)
    · cases leaves : gone slot with
      | true => exact .inl (.inr ⟨slot, leaves, referred⟩)
      | false =>
        obtain ⟨stream, standing, mem⟩ := referred
        exact .inr ⟨slot, stream, by rw [withdrawn slot, leaves]; exact standing, mem⟩

theorem Accounts.enlist (accounts : Accounts runtime shelf ledger floating missing)
    (old : ∀ {slot stream}, shelf slot = some stream → shelf' slot = some stream)
    (new : ∀ {slot stream}, shelf' slot = some stream → shelf slot = some stream ∨
    stream = StreamState.empty) : Accounts runtime shelf' ledger floating missing := by
  apply accounts.reshelve
  · rintro slot msg ⟨stream, standing, mem⟩
    rcases new standing with before | empty
    · exact accounts.backed ⟨stream, before, mem⟩
    · subst empty
      cases mem
  · intro slot stream standing
    rcases new standing with before | empty
    · exact ⟨accounts.balanced before, accounts.affordable before⟩
    · subst empty
      exact ⟨rfl, by decide⟩
  · intro msg reached
    refine reached.imp_right ?_
    rintro ⟨slot, stream, standing, mem⟩
    exact ⟨slot, stream, old standing, mem⟩

end Accounts

end IronGraph.Broker
