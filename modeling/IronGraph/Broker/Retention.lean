import IronGraph.Broker.Settlement

/-!
What leaves the front of a log: the references that retention has planned to remove, and all
references of a topic that is cleared.
-/

namespace IronGraph.Broker

open List hiding getElem?_insert
open Std Outcome OrderedMap BrokerStateMachine

structure Shed (before : StreamState) (dropped : List StreamReference)
    (after : StreamState) : Prop where
  well : StreamWell after
  base : before.baseOffset ≤ after.baseOffset
  next : after.nextOffset = before.nextOffset
  items : before.records.items = dropped ++ after.records.items

variable {middle : StreamState} {s : BrokerStateMachine} {runtime : Runtime} {edit : StreamEdit}
  {fail : Error → Prop} {project : ProjectId}

section Shed

variable {orderly : Prop} {before after : StreamState} {dropped : List StreamReference}

theorem Shed.trans {first second : List StreamReference} (prior : Shed before first middle)
    (later : Shed middle second after) :
    Shed before (first ++ second) after :=
  ⟨later.well, Nat.le_trans prior.base later.base, later.next.trans prior.next,
    by rw [prior.items, later.items, append_assoc]⟩

theorem Shed.heldIn (shed : Shed before dropped after)
    (unheld : ∀ ref ∈ dropped, ref.delivery.isUnacked = false)
    (owner : Uuid) : HeldIn after owner ↔ HeldIn before owner := by
  constructor
  · rintro ⟨ref, mem, owned⟩
    exact ⟨ref, by rw [shed.items]; exact mem_append_right _ mem, owned⟩
  · rintro ⟨ref, mem, owned⟩
    rw [shed.items, mem_append] at mem
    rcases mem with gone | kept
    · have held := isUnacked_eq_true.mpr ⟨owner, owned⟩
      rw [unheld ref gone] at held
      cases held
    · exact ⟨ref, kept, owned⟩

theorem Invariant.shed {floating : MessageId → Prop} {missing : Nat → Nat}
    {stale : ProjectId × Uuid → Prop} {slot : Slot}
    (inv : Invariant runtime orderly s floating missing stale)
    (here : At s slot edit.id before) (shed : Shed before dropped edit.stream)
    (unheld : ∀ ref ∈ dropped, ref.delivery.isUnacked = false)
    (bytes : before.retainedBytes = edit.stream.retainedBytes +
      (dropped.map fun ref => s.ledger.bill ref.message).sum) :
    Advances slot.project nobody s (s.commitStream edit) ∧
      Invariant runtime orderly (s.commitStream edit)
        (fun msg => floating msg ∨ msg ∈ dropped.map (·.message)) missing stale := by
  have msgs : before.messages = dropped.map (·.message) ++ edit.stream.messages := by
    unfold StreamState.messages
    rw [shed.items, map_append]
  have inside : ∀ ref ∈ edit.stream.records.items, ref ∈ before.records.items := by
    intro ref mem
    rw [shed.items]
    exact mem_append_right _ mem
  have held := shed.heldIn unheld
  have balanced := inv.accounts.balanced here.standing
  have affordable := inv.accounts.affordable here.standing
  refine ⟨inv.owned.advances here (.drop shed.base shed.next inside),
    inv.commitStream here shed.well (Nat.le_of_eq shed.next.symm)
      (inv.accounts.replace here.standing ?_ ?_ ?_ ?_)
      (inv.classic.replace here.standing fun owner holds => .inl ((held owner).mp holds))
      ((inv.leased.replace here.standing (fun _ => False)
        (fun owner holds => .inl ((held owner).mp holds)) fun owner holds =>
          .inl ((held owner).mpr holds)).settle ?_)⟩
  · intro msg mem
    rw [msgs]
    exact .inl (mem_append_right _ mem)
  · rw [msgs, map_append, sum_append, map_map] at balanced
    simp only [Function.comp_def] at balanced
    omega
  · omega
  · rintro msg (floats | mem)
    · exact .inl (.inl floats)
    · rw [msgs, mem_append] at mem
      exact mem.imp_left .inr
  · rintro project owner (outlived | ⟨_, impossible⟩)
    · exact .inr outlived
    · exact impossible.elim

end Shed

section Clear

variable {orderly : Prop}

theorem ClassicHeld.partition_unheld {shelf : Shelf} {queues : ExtTreeMap Name Queue}
    (classic : ClassicHeld shelf queues)
    {name : Name} {index : Nat} {stream : StreamState}
    (standing : shelf (.partition name index) = some stream)
    {ref : StreamReference} (mem : ref ∈ stream.records.items) :
    ref.delivery.isUnacked = false := by
  rw [Bool.eq_false_iff]
  intro held
  obtain ⟨owner, owned⟩ := isUnacked_eq_true.mp held
  obtain ⟨_, _, same, _⟩ := classic _ _ owner standing ⟨ref, mem, owned⟩
  cases same

structure Clears (runtime : Runtime) (orderly : Prop) (project : ProjectId) (s : BrokerStateMachine)
    (clearing : Clearing) : Prop where
  frame : Restreamed s clearing.machine
  advances : Advances project nobody s clearing.machine
  invariant : Invariant runtime orderly clearing.machine (fun message =>
    message ∈ clearing.removed) (fun _ => 0) (fun _ => False)
  charged : ∀ message ∈ clearing.removed, ∃ bytes, s.ledger.billed message = some (project, bytes)

theorem clearPartition_meets {clearing : BrokerStateMachine.Clearing} {name : Name} {index : Nat}
    {id : StreamId} (located : slotStream s.topics s.queues (.partition name index) = some id)
    (clears : Clears runtime orderly name.1 s clearing) :
    Meets (clearPartition clearing id) (Clears runtime orderly name.1 s) fail := by
  obtain ⟨frame, advances, inv, charged⟩ := clears
  have still : slotStream clearing.machine.topics clearing.machine.queues (.partition name index) =
      some id := by
    rw [frame]
    exact located
  obtain ⟨stream, here⟩ := inv.stands still
  have well := inv.logs here.standing
  have empty := stream.records.items_clear
  have length := well.length
  obtain ⟨later, after⟩ := inv.shed
    (show At clearing.machine (.partition name index)
      ({ id, stream := _, changes := _ } : StreamEdit).id stream from here)
    (show Shed stream stream.records.items _ from ⟨well.clear, by simp only; omega, rfl,
      by simp [empty]⟩)
    (fun ref mem => inv.classic.partition_unheld here.standing mem)
    (by
      rw [inv.accounts.balanced here.standing, StreamState.messages, map_map]
      exact (Nat.zero_add _).symm)
  apply Meets.passed (orElse_eq_ok.mpr here.editStream)
  refine ⟨?_, advances.trans later, after.weaken ?_ fun _ outlived => outlived, ?_⟩
  · exact frame.trans rfl
  · rintro msg (floats | mem)
    · exact ExtTreeSet.mem_insertMany_list.mpr (.inl floats)
    · exact ExtTreeSet.mem_insertMany_list.mpr (.inr (contains_iff_mem.mpr mem))
  · intro msg mem
    rcases ExtTreeSet.mem_insertMany_list.mp mem with before | new
    · exact charged msg before
    · have backed := inv.accounts.backed (show Refers clearing.machine.shelf
        (.partition name index) msg from
        ⟨stream, here.standing, contains_iff_mem.mp new⟩)
      rwa [frame.ledger] at backed

theorem clearTopic_meets {name : String} (settled : Settled runtime orderly s)
    (valid : s.validateCommand (.clearTopic project name) = .ok ()) :
    Meets (s.clearTopic project name) (Keeps runtime orderly project s) fail := by
  rw [validateCommand, require_eq_ok, contains_iff_exists] at valid
  obtain ⟨topic, declared⟩ := valid
  unfold clearTopic
  apply Meets.passed (orElse_eq_ok.mpr declared)
  have start : Clears runtime orderly project s { machine := s, removed := ∅, count := 0 } :=
    ⟨rfl, .refl project s, settled.weaken (fun _ => False.elim) fun _ outlived => outlived,
      fun msg mem => absurd mem (by simp)⟩
  apply Meets.bind (Meets.foldlM (fun rest clearing => Clears runtime orderly project s clearing ∧
    ∀ id ∈ rest, ∃ index, slotStream s.topics s.queues (.partition (project, name) index) = some id)
    topic.partitions ⟨start, ?_⟩ ?_)
  · rintro clearing ⟨clears, _⟩
    have charged : ∀ msg ∈ clearing.removed, ∃ bytes,
        clearing.machine.ledger.billed msg = some (project, bytes) := by
      rw [clears.frame.ledger]
      exact clears.charged
    apply Meets.bind (reclaimPayloadCandidates_meets clears.invariant charged)
    rintro final ⟨_, advances, after⟩
    exact ⟨after, clears.advances.trans advances⟩
  · intro id mem
    obtain ⟨index, found⟩ := mem_iff_getElem?.mp mem
    exact ⟨index, by simp [slotStream, declared, found]⟩
  · rintro id rest clearing ⟨clears, located⟩
    obtain ⟨index, here⟩ := located id (by simp)
    exact Meets.imp (clearPartition_meets here clears)
      (fun _ next => ⟨next, fun other mem => located other (mem_cons_of_mem _ mem)⟩)

end Clear

section Retain

variable {orderly : Prop} {count : Nat} {policy : RetentionPolicy} {now : Int}
  {refs rest : List StreamReference} {front : StreamReference}

def charge (s : BrokerStateMachine) (references : List StreamReference) : Nat :=
  (references.map fun reference => s.ledger.bill reference.message).sum

/-- The record in front of what is left of a log may go. -/
def Expendable (s : BrokerStateMachine) (policy : RetentionPolicy) (resolvedTimeMs : Int) :
    List StreamReference → Prop
  | [] => False
  | front :: rest => front.delivery.isUnacked = false ∧
    ((front.delivery = .acknowledged ∨ front.delivery = .deadLettered) ∨
      (∃ age payload, policy.maxAgeMs = some age ∧ s.payloads[front.message]? = some payload ∧
        (age : Int) ≤ saturatingSub resolvedTimeMs payload.resolvedTimeMs) ∨
      ∃ maximum, policy.maxBytes = some maximum ∧ maximum < charge s (front :: rest))

def Longest (s : BrokerStateMachine) (policy : RetentionPolicy) (resolvedTimeMs : Int)
    (references : List StreamReference) (count : Nat) : Prop :=
  ∀ length, length ≤ count ↔
    ∀ index < length, Expendable s policy resolvedTimeMs (references.drop index)

theorem longest_zero (stays : ¬ Expendable s policy now refs) : Longest s policy now refs 0 := by
  intro length
  cases length with
  | zero => simp
  | succ length =>
    exact ⟨fun more => absurd more (by omega), fun goes => absurd (goes 0 (by omega)) stays⟩

theorem Longest.cons (longest : Longest s policy now rest count)
    (goes : Expendable s policy now (front :: rest)) :
    Longest s policy now (front :: rest) (count + 1) := by
  intro length
  cases length with
  | zero => simp
  | succ length =>
    rw [Nat.add_le_add_iff_right, longest length, Nat.forall_lt_succ_left]
    exact (and_iff_right goes).symm

theorem Longest.inside (longest : Longest s policy now refs count) : count ≤ refs.length := by
  by_contra beyond
  have goes := (longest count).mp (Nat.le_refl _) refs.length (by omega)
  rwa [drop_length] at goes

theorem Longest.unheld (longest : Longest s policy now refs count) (ref : StreamReference)
    (mem : ref ∈ refs.take count) : ref.delivery.isUnacked = false := by
  obtain ⟨index, inside, rfl⟩ := mem_take_iff_getElem.mp mem
  have goes := (longest count).mp (Nat.le_refl _) index (by omega)
  rw [drop_eq_getElem_cons (by omega)] at goes
  exact goes.1

theorem expendable_cons {payload : StoredPayloadRecord} (free : front.delivery.isUnacked = false)
    (found : s.payloads[front.message]? = some payload) :
    Expendable s policy now (front :: rest) ↔
      retentionDue policy now (charge s (front :: rest)) front payload = true := by
  have limit : saturatingSub now payload.resolvedTimeMs ≤ i64Max := by
    unfold saturatingSub i64Min i64Max
    omega
  have bounded : ∀ age : Int, age ≤ saturatingSub now payload.resolvedTimeMs → age ≤ i64Max := by omega
  unfold Expendable retentionDue
  cases aged : policy.maxAgeMs <;> cases delivery : front.delivery <;>
    simp_all [DeliveryState.isUnacked, Option.any_eq_true, and_iff_right_of_imp (bounded _)]

theorem charge_take_drop (s : BrokerStateMachine) (count : Nat) (refs : List StreamReference) :
    charge s (refs.take count) + charge s (refs.drop count) = charge s refs := by
  conv_rhs => rw [← take_append_drop count refs]
  simp [charge]

/-- The running total is what the rest of the log is charged, so the scan stops after the longest
prefix. -/
theorem retentionScan_longest (charged : ∀ ref ∈ refs, ∃ bytes, s.ledger.billed ref.message =
    some (project, bytes))
    (affordable : charge s refs < u64Limit) (remove : Nat) : ∃ count, Longest s policy now refs count ∧
      s.retentionScan policy now refs (charge s refs) remove = .ok (charge s (refs.drop count),
        remove + count) := by
  induction refs generalizing remove with
  | nil => exact ⟨0, longest_zero id, rfl⟩
  | cons front rest ih =>
    obtain ⟨bytes, billed⟩ := charged front (by simp)
    obtain ⟨payload, seg, (found : s.payloads[_]? = _),
      (housed : s.payloadSegments[_]? = _), _, total⟩ :=
      Ledger.billed_eq_some.mp billed
    have cost : charge s (front :: rest) = bytes + charge s rest := by
      rw [← Ledger.bill_of_billed billed]
      rfl
    unfold retentionScan
    by_cases held : front.delivery.isUnacked = true
    · exact ⟨0, longest_zero fun goes => absurd (held.symm.trans goes.1) nofun, if_pos held⟩
    have due : Expendable s policy now (front :: rest) ↔ _ :=
      expendable_cons (Bool.eq_false_iff.mpr held) found
    rw [if_neg held, found]
    by_cases goes : Expendable s policy now (front :: rest)
    · obtain ⟨count, longest, scanned⟩ :=
        ih (fun ref mem => charged ref (mem_cons_of_mem _ mem)) (by omega) (remove + 1)
      have accounted : s.accountedPayloadBytes payload = .ok bytes :=
        bind_eq_ok.mpr ⟨seg, orElse_eq_ok.mpr housed,
          orElse_eq_ok.mpr (checkedSum_eq_some.mpr ⟨total, by omega⟩)⟩
      refine ⟨count + 1, longest.cons goes, bind_eq_ok.mpr ⟨payload, rfl, ?_⟩⟩
      rw [if_pos (due.mp goes), cost, accounted]
      refine bind_eq_ok.mpr ⟨bytes, rfl, ?_⟩
      rw [Nat.add_sub_cancel_left, scanned, Nat.add_right_comm, Nat.add_assoc]
      rfl
    · exact ⟨0, longest_zero goes, bind_eq_ok.mpr ⟨payload, rfl, if_neg (mt due.mpr goes)⟩⟩

def Planned (s : BrokerStateMachine) (step : RetentionStep) : Prop :=
  ∃ stream, s.streams[step.stream]? = some stream ∧ step.count ≤ stream.records.items.length ∧
    step.removedBytes = charge s (stream.records.items.take step.count) ∧
    ∀ reference ∈ stream.records.items.take step.count, reference.delivery.isUnacked = false

def counted : List RetentionStep → StreamId → Nat
  | [], _ => 0
  | step :: plan, id => if step.stream = id then step.count else counted plan id

theorem counted_absent {plan : List RetentionStep} {id : StreamId}
    (absent : id ∉ plan.map (·.stream)) : counted plan id = 0 := by
  induction plan with
  | nil => rfl
  | cons step plan ih =>
    rw [map_cons, mem_cons, not_or] at absent
    rw [counted, if_neg (Ne.symm absent.1), ih absent.2]

theorem retentionPlan_meets {policies : List (StreamId × RetentionPolicy)}
    (settled : Settled runtime orderly s) (now : Int)
    (inProject : ∀ entry ∈ policies, InProject s project entry.1)
    (distinct : (policies.map (·.1)).Nodup) :
    Meets (s.retentionPlan now policies)
      (fun plan => (∀ step ∈ plan, Planned s step) ∧
        (plan.map (·.stream)).Sublist (policies.map (·.1)) ∧
        ∀ entry ∈ policies, ∀ stream, s.streams[entry.1]? = some stream →
          Longest s entry.2 now stream.records.items (counted plan entry.1)) fail := by
  induction policies with
  | nil => exact ⟨nofun, .slnil, nofun⟩
  | cons entry rest ih =>
    obtain ⟨id, policy⟩ := entry
    obtain ⟨slot, rfl, located⟩ := inProject _ mem_cons_self
    obtain ⟨stream, here⟩ := settled.stands located
    have charged : ∀ ref ∈ stream.records.items, ∃ bytes,
        s.ledger.billed ref.message = some (slot.project, bytes) := fun ref mem =>
      settled.accounts.backed ⟨stream, here.standing, mem_map_of_mem mem⟩
    have whole : stream.retainedBytes = charge s stream.records.items := by
      rw [settled.accounts.balanced here.standing, StreamState.messages, map_map]
      rfl
    obtain ⟨count, longest, scanned⟩ : ∃ count, Longest s policy now _ count ∧ _ :=
      retentionScan_longest charged (whole ▸ settled.accounts.affordable here.standing) 0
    rw [← whole, Nat.zero_add] at scanned
    have removed : stream.retainedBytes - charge s (stream.records.items.drop count) =
        charge s (stream.records.items.take count) := by
      rw [whole, ← charge_take_drop s count, Nat.add_sub_cancel_right]
    have only : ∀ found, s.streams[id]? = some found → Longest s policy now found.records.items count :=
      fun found standing => Option.some.inj (here.stream.symm.trans standing) ▸ longest
    apply Meets.passed (orElse_eq_ok.mpr here.stream)
    apply Meets.passed scanned
    obtain ⟨fresh, others⟩ := nodup_cons.mp distinct
    apply Meets.bind (ih (fun other mem => inProject other (mem_cons_of_mem _ mem)) others)
    rintro plan ⟨planned, listed, due⟩
    simp only [map_cons]
    split
    next none =>
      refine ⟨planned, listed.cons _, forall_mem_cons.mpr ⟨?_, due⟩⟩
      rw [counted_absent fun mem => fresh (listed.mem mem)]
      exact none ▸ only
    · refine ⟨forall_mem_cons.mpr ⟨⟨stream, here.stream, longest.inside, removed,
        longest.unheld⟩, planned⟩, listed.cons_cons _, forall_mem_cons.mpr ⟨?_, ?_⟩⟩
      · rw [counted, if_pos rfl]
        exact only
      · intro other mem
        rw [counted, if_neg fun same => fresh (mem_map.mpr ⟨other, mem, same.symm⟩)]
        exact due other mem

theorem popReferences_meets {edit : StreamEdit} (well : StreamWell edit.stream) {count : Nat}
    (inside : count ≤ edit.stream.records.items.length) (candidates : ExtTreeSet MessageId) :
    Meets (popReferences count edit candidates)
      (fun popped => popped.1.id = edit.id ∧ popped.1.stream.retainedBytes = edit.stream.retainedBytes ∧
        Shed edit.stream (edit.stream.records.items.take count) popped.1.stream ∧
        ∀ msg, msg ∈ popped.2 ↔
          msg ∈ candidates ∨ msg ∈ (edit.stream.records.items.take count).map (·.message)) fail := by
  induction count generalizing edit candidates with
  | zero => exact ⟨rfl, rfl, ⟨well, Nat.le_refl _, rfl, rfl⟩, by simp⟩
  | succ count ih =>
    cases listed : edit.stream.records.items with
    | nil =>
      rw [listed] at inside
      exact absurd inside (Nat.not_succ_le_zero _)
    | cons front rest =>
      obtain ⟨records, popped, items, after⟩ := well.popFront listed
      have step : edit.popFront = some (front, { edit with
          stream := { edit.stream with records }
          changes := edit.changes ++ [.reference edit.id edit.stream.records.head none] }) := by
        simp [StreamEdit.popFront, popped]
      apply Meets.passed (orElse_eq_ok.mpr step)
      rw [listed, length_cons] at inside
      have numbered := well.numbered (show edit.stream.records.items[0]? = some front by simp [listed])
      have bounded := (well.position (show front ∈ edit.stream.records.items by simp [listed])).2.1
      have limit := well.bounded
      refine Meets.imp (ih after (show count ≤ records.items.length by rw [items]; omega) _) ?_
      rintro popped ⟨same, bytes, shed, union⟩
      have first : Shed edit.stream [front]
          { edit.stream with records, baseOffset := saturatingAdd front.offset 1 } := by
        refine ⟨after, ?_, rfl, by rw [listed]; simp [items]⟩
        simp only [saturatingAdd]
        omega
      refine ⟨same, bytes, ?_, ?_⟩
      · have both := first.trans shed
        simp only [items, singleton_append] at both
        exact both
      · intro msg
        rw [union, ExtTreeSet.mem_insert, LawfulEqCmp.compare_eq_iff_eq]
        simp only [items, take_succ_cons, map_cons, mem_cons]
        tauto

theorem Planned.commitStream {step : RetentionStep} (planned : Planned s step)
    (apart : edit.id ≠ step.stream) :
    Planned (s.commitStream edit) step := by
  obtain ⟨stream, found, fits⟩ := planned
  refine ⟨stream, ?_, fits⟩
  change (s.streams.insert edit.id edit.stream)[step.stream]? = some stream
  rw [getElem?_insert, if_neg apart, found]

/-- A log has lost its first `count` records and no others. -/
def Trims (s : BrokerStateMachine) (count : Nat) (before after : StreamState) : Prop :=
  after.records.items = before.records.items.drop count ∧ after.baseOffset = before.baseOffset + count ∧
    after.nextOffset = before.nextOffset ∧
    after.retainedBytes + charge s (before.records.items.take count) = before.retainedBytes

theorem Trims.remain {before after : StreamState}
    (first : Trims s count before middle) (later : Trims s 0 middle after) :
    Trims s count before after :=
  ⟨later.1.trans first.1, later.2.1.trans first.2.1, later.2.2.1.trans first.2.2.1,
    (congrArg (· + _) later.2.2.2).trans first.2.2.2⟩

theorem Shed.trims {before after : StreamState}
    (shed : Shed before (before.records.items.take count) after)
    (well : StreamWell before) (inside : count ≤ before.records.items.length)
    (bytes : before.retainedBytes = after.retainedBytes + charge s (before.records.items.take count)) :
    Trims s count before after := by
  have items := append_cancel_left ((take_append_drop count _).trans shed.items)
  have longer := well.length
  have shorter := shed.well.length
  rw [← items, length_drop, shed.next] at shorter
  exact ⟨items.symm, by omega, shed.next, bytes.symm⟩

theorem trimStreams_meets {candidates : ExtTreeSet MessageId}
    {plan : List BrokerStateMachine.RetentionStep} (distinct : (plan.map (·.stream)).Nodup)
    (planned : ∀ step ∈ plan, Planned s step ∧ InProject s project step.stream) (removed : Nat)
    (inv : Invariant runtime orderly s (fun msg => msg ∈ candidates) (fun _ => 0) (fun _ => False))
    (charged : ∀ msg ∈ candidates, ∃ bytes, s.ledger.billed msg = some (project, bytes)) :
    Meets (trimStreams plan s removed candidates)
      (fun trimmed => Advances project nobody s trimmed.1 ∧
        Invariant runtime orderly trimmed.1 (fun msg => msg ∈ trimmed.2.2) (fun _ => 0)
          (fun _ => False) ∧
        (∀ msg ∈ trimmed.2.2, ∃ bytes, trimmed.1.ledger.billed msg = some (project, bytes)) ∧
        Restreamed s trimmed.1 ∧ ∀ (id : StreamId) (before : StreamState),
          s.streams[id]? = some before →
          ∃ after, trimmed.1.streams[id]? = some after ∧
          Trims s (counted plan id) before after) fail := by
  induction plan generalizing s removed candidates with
  | nil =>
    exact ⟨.refl project s, inv, charged, rfl, fun _ before found =>
      ⟨before, found, rfl, rfl, rfl, rfl⟩⟩
  | cons step rest ih =>
    obtain ⟨⟨stream, found, inside, bytes, unheld⟩, slot, rfl, located⟩ := planned step (by simp)
    have here : At s slot step.stream stream := ⟨located, found⟩
    have referred : ∀ msg ∈ (stream.records.items.take step.count).map (·.message),
        ∃ bytes, s.ledger.billed msg = some (slot.project, bytes) := by
      intro msg mem
      exact inv.accounts.backed ⟨stream, here.standing,
        ((take_sublist _ _).map _).mem mem⟩
    apply Meets.passed (orElse_eq_ok.mpr here.editStream)
    apply Meets.bind (popReferences_meets (show StreamWell
      ({ id := step.stream, stream, changes := [] } : StreamEdit).stream from
        inv.logs here.standing) inside candidates)
    rintro ⟨edit, popped⟩ ⟨(same : edit.id = step.stream),
      (kept : edit.stream.retainedBytes = _), shed, union⟩
    -- The bytes that were charged for the references are no more than the bytes retained.
    have affordable : charge s (stream.records.items.take step.count) ≤ stream.retainedBytes := by
      rw [inv.accounts.balanced here.standing, StreamState.messages, map_map]
      exact ((take_sublist _ _).map _).sum_le_sum fun _ _ => Nat.zero_le _
    have lighter : Shed stream (stream.records.items.take step.count)
        { edit.stream with retainedBytes := edit.stream.retainedBytes - step.removedBytes } :=
      ⟨{ shed.well with }, shed.base, shed.next, shed.items⟩
    have total : stream.retainedBytes = edit.stream.retainedBytes - step.removedBytes +
        charge s (stream.records.items.take step.count) := by
      rw [kept, bytes]
      exact (Nat.sub_add_cancel affordable).symm
    obtain ⟨advances, after⟩ := inv.shed (show At s slot ({ edit with
        stream := { edit.stream with
          retainedBytes := edit.stream.retainedBytes - step.removedBytes } } :
      StreamEdit).id stream from same.symm ▸ here) lighter unheld total
    have remaining := nodup_cons.mp distinct
    refine Meets.imp (ih remaining.2 ?_ _ (after.weaken ?_ fun _ outlived => outlived) ?_) ?_
    · intro other mem
      obtain ⟨fits, owned⟩ := planned other (mem_cons_of_mem _ mem)
      refine ⟨fits.commitStream ?_, owned⟩
      rintro (equal : edit.id = other.stream)
      exact remaining.1 (mem_map.mpr ⟨other, mem, equal.symm.trans same⟩)
    · rintro msg (floats | mem)
      · exact (union msg).mpr (.inl floats)
      · exact (union msg).mpr (.inr mem)
    · intro msg mem
      exact ((union msg).mp mem).elim (charged msg) (referred msg)
    · rintro trimmed ⟨later, last, owned, frame, trims⟩
      refine ⟨advances.trans later, last, owned,
        .trans (show Restreamed s (s.commitStream _) from rfl) frame, ?_⟩
      intro id before standing
      have written := getElem?_insert s.streams edit.id id
        { edit.stream with retainedBytes := edit.stream.retainedBytes - step.removedBytes }
      rw [counted, ← same]
      split
      next reached =>
        obtain ⟨after, still, rest⟩ := trims id _ (written.trans (if_pos reached))
        rw [← reached, same] at standing
        rw [counted_absent (reached ▸ same ▸ remaining.1)] at rest
        obtain rfl := Option.some.inj (found.symm.trans standing)
        exact ⟨after, still, (lighter.trims (inv.logs here.standing) inside total).remain rest⟩
      next apart => exact trims id before ((written.trans (if_neg apart)).trans standing)

def slotRetention (s : BrokerStateMachine) : Slot → Option RetentionPolicy
  | .partition name _ => s.topics[name]?.map (·.retention)
  | .queue name => s.queues[name]?.map (·.retention)

theorem retentionPolicies_eq_some {id : StreamId}
    (owned : Owned s.topics s.queues s.streams s.nextStreamId) :
    (s.retentionPolicies project)[id]? = some policy ↔ ∃ slot : Slot, slot.project = project ∧
      slotStream s.topics s.queues slot = some id ∧ slotRetention s slot = some policy := by
  let entries := ((s.topics.toList.filter fun entry => entry.1.1 == project).flatMap fun entry =>
      entry.2.partitions.map fun id => (id, entry.2.retention)) ++
    (s.queues.toList.filter fun entry => entry.1.1 == project).map fun entry =>
      (entry.2.stream, entry.2.retention)
  have folded : s.retentionPolicies project =
      entries.foldl (fun policies entry => policies.insert entry.1 entry.2) ∅ := by
    simp only [entries, foldl_append, foldl_flatMap, foldl_map]
    rfl
  have listed : ∀ id policy, (id, policy) ∈ entries ↔ ∃ slot : Slot, slot.project = project ∧
      slotStream s.topics s.queues slot = some id ∧ slotRetention s slot = some policy := by
    intro id policy
    simp only [entries, mem_append, mem_flatMap, mem_map, mem_filter, and_assoc,
      exists_mem_toList, beq_iff_eq, Prod.mk.injEq]
    constructor
    · rintro (⟨name, topic, found, within, _, mem, rfl, rfl⟩ | ⟨name, queue, found, within, rfl, rfl⟩)
      · obtain ⟨index, here⟩ := mem_iff_getElem?.mp mem
        exact ⟨.partition name index, within, by simp [slotStream, found, here],
          by simp [slotRetention, found]⟩
      · exact ⟨.queue name, within, by simp [slotStream, found], by simp [slotRetention, found]⟩
    · rintro ⟨⟨name, index⟩ | name, within, here, kept⟩
      · obtain ⟨topic, found, has⟩ := Option.bind_eq_some_iff.mp here
        exact .inl ⟨name, topic, found, within, id, mem_of_getElem? has, rfl,
          by simpa [slotRetention, found] using kept⟩
      · obtain ⟨queue, found, same⟩ := Option.map_eq_some_iff.mp here
        exact .inr ⟨name, queue, found, within, same, by simpa [slotRetention, found] using kept⟩
  rw [folded, foldl_insert_eq_some, listed]
  intro id first second one other
  obtain ⟨slot, _, located, kept⟩ := (listed _ _).mp one
  obtain ⟨slot', _, located', kept'⟩ := (listed _ _).mp other
  rw [owned.injective located located', kept', Option.some.injEq] at kept
  exact kept.symm

def Retains (s s' : BrokerStateMachine) (project : ProjectId) (resolvedTimeMs : Int) : Prop :=
  ∀ {slot policy before}, slot.project = project → slotRetention s slot = some policy →
    s.shelf slot = some before →
      ∃ count after, Longest s policy resolvedTimeMs before.records.items count ∧
      s'.shelf slot = some after ∧ Trims s count before after

theorem retain_meets (settled : Settled runtime orderly s) (project : ProjectId) (now : Int) :
    Meets (s.retain project now) (fun trimmed => Advances project nobody s trimmed.1 ∧
        Invariant runtime orderly trimmed.1 (fun msg => msg ∈ trimmed.2.2) (fun _ => 0)
          (fun _ => False) ∧
        (∀ msg ∈ trimmed.2.2, ∃ bytes, trimmed.1.ledger.billed msg = some (project, bytes)) ∧
        Retains s trimmed.1 project now) fail := by
  have inProject : ∀ entry ∈ (s.retentionPolicies project).toList, InProject s project entry.1 := by
    intro entry mem
    obtain ⟨slot, within, located, _⟩ :=
      (retentionPolicies_eq_some settled.owned).mp (ExtTreeMap.mem_toList_iff_getElem?_eq_some.mp mem)
    exact ⟨slot, within, located⟩
  have keys : ((s.retentionPolicies project).toList.map (·.1)).Nodup := by
    rw [ExtTreeMap.map_fst_toList_eq_keys]
    exact ExtTreeMap.nodup_keys
  unfold retain
  apply Meets.bind (retentionPlan_meets settled now inProject keys)
  rintro plan ⟨planned, listed, due⟩
  have steps : ∀ step ∈ plan, Planned s step ∧ InProject s project step.stream := by
    intro step mem
    obtain ⟨entry, inside, same⟩ := mem_map.mp (listed.mem (mem_map_of_mem mem))
    exact ⟨planned step mem, same ▸ inProject entry inside⟩
  refine Meets.imp (trimStreams_meets (keys.sublist listed) steps _
    (settled.weaken (fun _ => False.elim) fun _ outlived => outlived) (fun msg mem =>
      absurd mem (by simp))) ?_
  rintro after ⟨advances, inv, charged, frame, trimmed⟩
  refine ⟨advances, inv, charged, ?_⟩
  intro slot policy before within kept standing
  obtain ⟨id, located, found⟩ := shelfOf_eq_some.mp standing
  have mem := ExtTreeMap.mem_toList_iff_getElem?_eq_some.mpr
    ((retentionPolicies_eq_some settled.owned).mpr ⟨slot, within, located, kept⟩)
  have still : slotStream after.1.topics after.1.queues slot = some id := by
    rw [frame]
    exact located
  obtain ⟨stream, left, trims⟩ := trimmed id before found
  exact ⟨_, stream, due _ mem before found, shelfOf_eq_some.mpr ⟨id, still, left⟩, trims⟩

end Retain

end IronGraph.Broker
