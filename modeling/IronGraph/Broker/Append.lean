import IronGraph.Broker.Reclaim

/-!
Appending references: to one stream or to all the streams a message is routed to, one message at a
time or a batch at once. The only errors left are those of the checked counters and byte totals.
-/

namespace IronGraph.Broker

open List hiding getElem?_insert
open Std Outcome OrderedMap BrokerStateMachine

def Restreamed (s s' : BrokerStateMachine) : Prop :=
  s' = { s with streams := s'.streams, capture := s'.capture }

theorem Restreamed.trans {first second third : BrokerStateMachine} (before : Restreamed first second)
    (after : Restreamed second third) : Restreamed first third := by
  unfold Restreamed at *
  rw [after, before]

variable {s' s : BrokerStateMachine} {total : Nat} {project : ProjectId}

theorem Restreamed.ledger (restreamed : Restreamed s s') : s'.ledger = s.ledger := by
  rw [restreamed]
  rfl

theorem checkedSum_eq_some {left right : Nat} :
    checkedSum left right = some total ↔ left + right = total ∧ left + right < u64Limit := by
  unfold checkedSum
  split
  next fits => simp [fits]
  next fails => simp [fails]

theorem meets_checkedSum {α : Type} {left right : Nat} {error : Error} {next : Nat → Result α}
    {final : α → Prop}
    (listed : error ∈ overflowErrors) (continued : left + right < u64Limit →
    Meets (next (left + right)) final Overflow) :
    Meets (orElse (checkedSum left right) error >>= next) final Overflow := by
  refine Meets.orElse (fun _ => listed) fun total sum => ?_
  obtain ⟨rfl, room⟩ := checkedSum_eq_some.mp sum
  exact continued room

/-- What an append says of a new reference; the log supplies the offset. -/
structure Draft where
  message : MessageId
  deathCount : Nat
  currentExchange : Option String
  currentRoutingKey : Option String

def Draft.place (draft : Draft) (offset : Nat) : StreamReference :=
  { initialReference offset draft.message with
    deathCount := draft.deathCount
    currentExchange := draft.currentExchange
    currentRoutingKey := draft.currentRoutingKey }

def Draft.initial (message : MessageId) : Draft :=
  { message, deathCount := 0, currentExchange := none, currentRoutingKey := none }

variable {drafts : List Draft}

def placeAll (first : Nat) (drafts : List Draft) : List StreamReference :=
  drafts.mapIdx fun index draft => draft.place (first + index)

@[simp] theorem length_placeAll (first : Nat) (drafts : List Draft) :
    (placeAll first drafts).length = drafts.length :=
  length_mapIdx

theorem getElem?_placeAll (first : Nat) (drafts : List Draft) (index : Nat) :
    (placeAll first drafts)[index]? = drafts[index]?.map fun draft => draft.place (first + index) :=
  getElem?_mapIdx

theorem placeAll_append (first : Nat) (drafts more : List Draft) :
    placeAll first (drafts ++ more) = placeAll first drafts ++
      placeAll (first + drafts.length) more := by
  simp only [placeAll, mapIdx_append]
  congr 2
  funext index draft
  congr 1
  omega

theorem mem_placeAll {first : Nat} {ref : StreamReference} (mem : ref ∈ placeAll first drafts) :
    first ≤ ref.offset ∧ ref.delivery = .ready ∧ ∃ draft ∈ drafts, ref.message = draft.message := by
  obtain ⟨index, found⟩ := mem_iff_getElem?.mp mem
  rw [getElem?_placeAll, Option.map_eq_some_iff] at found
  obtain ⟨draft, listed, rfl⟩ := found
  exact ⟨Nat.le_add_right _ _, rfl, draft, mem_of_getElem? listed, rfl⟩

/-- References have been appended to the streams of a project, and nothing else has changed. -/
structure Appended (project : ProjectId) (s s' : BrokerStateMachine)
    (drafts : StreamId → List Draft) : Prop where
  frame : Restreamed s s'
  advances : Advances project nobody s s'
  absent : ∀ {id : StreamId}, s.streams[id]? = none → s'.streams[id]? = none
  logs : ∀ {id : StreamId} {stream : StreamState}, s.streams[id]? = some stream →
    ∃ stream', s'.streams[id]? = some stream' ∧ stream'.baseOffset = stream.baseOffset ∧
      stream'.nextOffset = stream.nextOffset + (drafts id).length ∧
      stream'.records.items = stream.records.items ++ placeAll stream.nextOffset (drafts id)

theorem Appended.refl (project : ProjectId) (s : BrokerStateMachine) :
    Appended project s s (fun _ => []) :=
  ⟨rfl, .refl project s, fun absent => absent, fun found => ⟨_, found, rfl, rfl, by simp [placeAll]⟩⟩

theorem Appended.trans {project : ProjectId} {s'' : BrokerStateMachine}
    {drafts more : StreamId → List Draft}
    (first : Appended project s s' drafts) (second : Appended project s' s'' more) :
    Appended project s s'' (fun id => drafts id ++ more id) := by
  refine ⟨first.frame.trans second.frame, first.advances.trans second.advances,
    fun absent => second.absent (first.absent absent), ?_⟩
  intro id stream found
  obtain ⟨middle, has, base, next, items⟩ := first.logs found
  obtain ⟨final, last, sameBase, reached, all⟩ := second.logs has
  refine ⟨final, last, sameBase.trans base, ?_, ?_⟩
  · rw [reached, next, length_append, Nat.add_assoc]
  · rw [all, items, next, placeAll_append, append_assoc]

theorem Appended.congr {drafts more : StreamId → List Draft}
    (appended : Appended project s s' drafts) (same : ∀ id, drafts id = more id) :
    Appended project s s' more :=
  funext same ▸ appended

def InProject (s : BrokerStateMachine) (project : ProjectId) (id : StreamId) : Prop :=
  ∃ slot : Slot, slot.project = project ∧ slotStream s.topics s.queues slot = some id

section Append

variable {orderly : Prop} {s : BrokerStateMachine} {id : StreamId} {messages : List MessageId}
  {bytes : Nat} {msg message : MessageId} {runtime : Runtime} {floating : MessageId → Prop}
  {missing : Nat → Nat} {stale : ProjectId × Uuid → Prop}

theorem accountedPayloadBytes_meets {payload : StoredPayloadRecord}
    (found : s.payloads[msg]? = some payload) (billed : s.ledger.billed msg = some (project, bytes)) :
    Meets (s.accountedPayloadBytes payload) (fun total => total = bytes) Overflow := by
  obtain ⟨record, seg, recorded, has, _, total⟩ := Ledger.billed_eq_some.mp billed
  have same : record = payload := Option.some.inj (recorded.symm.trans found)
  subst same
  unfold accountedPayloadBytes
  apply Meets.orElse
  · intro absent
    cases has.symm.trans absent
  · intro owner owned
    have same : owner = seg := Option.some.inj (owned.symm.trans has)
    subst same
    cases sum : checkedSum record.retainedBytes owner.sharedIngressBytes with
    | none => simp [orElse, Meets, Overflow, overflowErrors]
    | some value => exact (checkedSum_eq_some.mp sum).1.symm.trans total

theorem referenceBytes_meets (billed : s.ledger.billed msg = some (project, bytes)) :
    Meets (s.referenceBytes msg) (fun total => total = bytes) Overflow := by
  obtain ⟨payload, _, found, _⟩ := Ledger.billed_eq_some.mp billed
  change s.payloads[msg]? = some payload at found
  simp only [referenceBytes, found]
  exact accountedPayloadBytes_meets found billed

theorem Invariant.append (inv : Invariant runtime orderly s floating missing stale)
    (refs : List StreamReference) (changes : List Event) {slot : Slot} {stream : StreamState}
    (here : At s slot id stream)
    (charged : ∀ ref ∈ refs, ∃ bytes, s.ledger.billed ref.message = some (slot.project, bytes))
    (numbered : ∀ index ref, refs[index]? = some ref →
      ref.offset = stream.nextOffset + index) (ready : ∀ ref ∈ refs, ref.delivery = .ready)
    (room : stream.nextOffset + refs.length < u64Limit)
    (affordable : stream.retainedBytes + (refs.map fun ref => s.ledger.bill ref.message).sum <
      u64Limit) : Invariant runtime orderly
      (s.commitStream
        { id, changes
          stream := stream.appended refs
            (refs.map fun ref => s.ledger.bill ref.message).sum })
      (fun msg => floating msg ∧ ∀ ref ∈ refs, msg ≠ ref.message)
      missing stale := by
  obtain ⟨well, items⟩ := (inv.logs here.standing).appended numbered ready room
    (refs.map fun ref => s.ledger.bill ref.message).sum
  have held : ∀ owner, HeldIn (stream.appended refs
      (refs.map fun ref => s.ledger.bill ref.message).sum) owner ↔ HeldIn stream owner := by
    intro owner
    unfold HeldIn
    rw [items]
    constructor
    · rintro ⟨ref, mem, owned⟩
      rcases mem_append.mp mem with old | new
      · exact ⟨ref, old, owned⟩
      · rw [ready ref new] at owned
        cases owned
    · rintro ⟨ref, mem, owned⟩
      exact ⟨ref, mem_append_left _ mem, owned⟩
  have messages : (stream.appended refs
      (refs.map fun ref => s.ledger.bill ref.message).sum).messages =
        stream.messages ++ refs.map (·.message) := by
    simp only [StreamState.messages, items, map_append]
  refine (inv.commitStream here well (Nat.le_add_right _ _)
    (inv.accounts.replace here.standing ?_ ?_ affordable ?_)
    (inv.classic.replace here.standing fun owner holds => .inl ((held owner).mp holds))
    (inv.leased.replace here.standing (fun _ => False)
      (fun owner holds => .inl ((held owner).mp holds))
      fun owner holds => .inl ((held owner).mpr holds))).weaken (fun _ floats => floats) ?_
  · intro msg mem
    rw [messages, mem_append] at mem
    refine mem.imp_right fun new => ?_
    obtain ⟨ref, inside, same⟩ := mem_map.mp new
    exact same ▸ charged ref inside
  · rw [messages, map_append, sum_append, ← inv.accounts.balanced here.standing, map_map]
    rfl
  · intro msg reached
    rw [messages, mem_append, mem_map]
    rcases reached with floats | old
    · by_cases appended : ∃ ref ∈ refs, ref.message = msg
      · exact .inr (.inr appended)
      · refine .inl ⟨floats, fun ref mem same => appended ⟨ref, mem, same.symm⟩⟩
    · exact .inr (.inl old)
  · rintro key (outlived | ⟨_, impossible⟩)
    · exact outlived
    · exact absurd impossible not_false

theorem At.appended {slot : Slot} {stream : StreamState} (here : At s slot id stream)
    (owned : Owned s.topics s.queues s.streams s.nextStreamId) (well : StreamWell stream)
    (drafts : List Draft) (changes : List Event) (bytes : Nat) : Appended slot.project s
      (s.commitStream
        { id, changes, stream := stream.appended (placeAll stream.nextOffset drafts) bytes })
      (fun other => if other = id then drafts else []) := by
  obtain ⟨_, items, _⟩ := well.filled.pushAll (placeAll stream.nextOffset drafts)
  refine ⟨rfl, owned.advances here ?_, ?_, ?_⟩
  · exact .append rfl (Nat.le_add_right _ _) items (fun ref mem => (mem_placeAll mem).1)
      fun ref mem => (mem_placeAll mem).2.1
  · intro other absent
    change (s.streams.insert id _)[other]? = none
    rw [getElem?_insert, if_neg]
    · exact absent
    · rintro rfl
      cases here.stream.symm.trans absent
  · intro other log found
    change ∃ stream', (s.streams.insert id _)[other]? = some stream' ∧ _
    rw [getElem?_insert]
    by_cases same : other = id
    · subst same
      have equal : log = stream := Option.some.inj (found.symm.trans here.stream)
      subst equal
      simp only [if_true]
      exact ⟨_, rfl, rfl, by simp [StreamState.appended], items⟩
    · simp only [if_neg same, if_neg (Ne.symm same)]
      exact ⟨log, found, rfl, rfl, by simp [placeAll]⟩

theorem appendReferenceWithRoute_meets (inv : Invariant runtime orderly s floating missing stale)
    (target : InProject s project id) (billed : s.ledger.billed message = some (project, bytes))
    (exchange routingKey : Option String) (deathCount : Nat) :
    Meets (s.appendReferenceWithRoute id message exchange routingKey deathCount)
      (fun appended => (∃ stream, s.streams[id]? = some stream ∧ appended.2 = stream.nextOffset) ∧
        Appended project s appended.1 (fun other => if other = id then
          [{ message, deathCount, currentExchange := exchange, currentRoutingKey := routingKey }]
            else []) ∧
        Invariant runtime orderly appended.1 (fun other => floating other ∧
          other ≠ message) missing stale)
      Overflow := by
  obtain ⟨slot, within, located⟩ := target
  obtain ⟨stream, here⟩ := inv.stands located
  unfold appendReferenceWithRoute
  apply Meets.bind (referenceBytes_meets billed)
  rintro total rfl
  apply Meets.passed (orElse_eq_ok.mpr here.editStream)
  refine meets_checkedSum (by simp [overflowErrors]) fun room => ?_
  refine meets_checkedSum (by simp [overflowErrors]) fun affordable => ?_
  have bill := Ledger.bill_of_billed billed
  refine ⟨⟨stream, here.stream, rfl⟩, within ▸ here.appended inv.owned (inv.logs here.standing)
    [{ message, deathCount, currentExchange := exchange, currentRoutingKey := routingKey }] _ _, ?_⟩
  have after := inv.append
    [{ initialReference stream.nextOffset message with
        deathCount, currentExchange := exchange, currentRoutingKey := routingKey }]
    [.reference id stream.records.tail (some
      { initialReference stream.nextOffset message with
        deathCount, currentExchange := exchange, currentRoutingKey := routingKey })] here ?_ ?_ ?_ room
    (by simpa [initialReference, bill] using affordable)
  · simp only [map_cons, map_nil, sum_cons, sum_nil, initialReference, bill,
      Nat.add_zero, mem_singleton, forall_eq] at after
    exact after
  · intro ref mem
    rw [mem_singleton.mp mem, within]
    exact ⟨_, billed⟩
  · intro index ref found
    cases index with
    | zero =>
      simp only [getElem?_cons_zero, Option.some.injEq] at found
      rw [← found]
      rfl
    | succ index => simp at found
  · intro ref mem
    rw [mem_singleton.mp mem]
    rfl

theorem InProject.restream (target : InProject s project id) (restreamed : Restreamed s s') :
    InProject s' project id := by
  rw [restreamed]
  exact target

def logEnd (s : BrokerStateMachine) (id : StreamId) : Nat := s.streams[id]?.elim 0 (·.nextOffset)

theorem Appended.logEnd_quiet {drafts : StreamId → List Draft}
    (appended : Appended project s s' drafts) (quiet : drafts id = []) :
    logEnd s' id = logEnd s id := by
  unfold logEnd
  cases found : s.streams[id]? with
  | none => rw [appended.absent found]
  | some stream =>
    obtain ⟨after, has, _, next, _⟩ := appended.logs found
    rw [has, Option.elim_some, Option.elim_some, next, quiet, length_nil, Nat.add_zero]

theorem Appended.targets {target : StreamId} {s'' : BrokerStateMachine} {rest : List StreamId}
    (first : Appended project s s' fun other => if other = target then drafts else [])
    (second : Appended project s' s'' fun other => if other ∈ rest then drafts else [])
    (fresh : target ∉ rest) :
    Appended project s s'' fun other => if other ∈ target :: rest then drafts else [] := by
  refine (first.trans second).congr ?_
  intro other
  by_cases here : other = target
  · simp [here, fresh]
  · simp [here]

theorem appendToStreams_meets (targets : List StreamId) (distinct : targets.Nodup)
    (invariant : Invariant runtime orderly s floating missing stale)
    (inProject : ∀ id ∈ targets, InProject s project id)
    (billed : s.ledger.billed message = some (project, bytes))
    (exchange routingKey : Option String) (deathCount : Nat) :
    Meets (appendToStreams message exchange routingKey deathCount targets s)
      (fun appended => appended.2 = targets.map (fun id => (id, logEnd s id)) ∧
        Appended project s appended.1 (fun id => if id ∈ targets then
          [{ message, deathCount, currentExchange := exchange, currentRoutingKey := routingKey }]
            else []) ∧
        Invariant runtime orderly appended.1 (fun other => floating other ∧
          (other = message → targets = [])) missing stale)
      Overflow := by
  induction targets generalizing s floating with
  | nil =>
    exact ⟨rfl, (Appended.refl project s).congr fun _ => by simp,
      invariant.weaken (fun other floats => ⟨floats, fun _ => rfl⟩) fun _ outlived => outlived⟩
  | cons target rest ih =>
    obtain ⟨fresh, apart⟩ := nodup_cons.mp distinct
    apply Meets.bind (appendReferenceWithRoute_meets invariant (inProject target (by simp))
      billed exchange routingKey deathCount)
    rintro ⟨middle, offset⟩ ⟨⟨stream, found, (rfl : offset = _)⟩, appended, after⟩
    have remaining : ∀ id ∈ rest, InProject middle project id :=
      fun id mem => (inProject id (mem_cons_of_mem _ mem)).restream appended.frame
    have known : middle.ledger.billed message = some (project, bytes) := appended.frame.ledger ▸ billed
    apply Meets.bind (ih apart after remaining known)
    rintro ⟨final, offsets⟩ ⟨(rfl : offsets = _), continued, settled⟩
    refine ⟨?_, appended.targets continued fresh, settled.weaken ?_ fun _ outlived => outlived⟩
    · have first : logEnd s target = stream.nextOffset := by simp [logEnd, found]
      rw [map_cons, first]
      refine congrArg (_ :: ·) (map_congr_left fun id mem => ?_)
      rw [appended.logEnd_quiet (if_neg fun (same : id = target) => fresh (same ▸ mem))]
    rintro other ⟨⟨floats, apart⟩, _⟩
    exact ⟨floats, fun same => absurd same apart⟩

def batchReferences (firstOffset : Nat) (messages : List MessageId) : List StreamReference :=
  messages.zipIdx.map fun entry => initialReference (firstOffset + entry.2) entry.1

theorem getElem?_batchReferences {firstOffset : Nat} (index : Nat) :
    (batchReferences firstOffset messages)[index]? =
      messages[index]?.map (initialReference (firstOffset + index)) := by
  simp [batchReferences, getElem?_map, getElem?_zipIdx, Function.comp_def]

section

variable (firstOffset : Nat) (messages : List MessageId)

theorem batchReferences_eq_placeAll :
    batchReferences firstOffset messages = placeAll firstOffset (messages.map Draft.initial) := by
  apply ext_getElem?
  intro index
  rw [getElem?_batchReferences, getElem?_placeAll, getElem?_map, Option.map_map]
  rfl

theorem batchReferences_messages :
    (batchReferences firstOffset messages).map (·.message) = messages := by
  apply ext_getElem?
  intro index
  simp [getElem?_batchReferences, initialReference, Function.comp_def]

end

theorem foldl_pushBack (refs : List StreamReference) (edit : StreamEdit) :
    (refs.foldl StreamEdit.pushBack edit).id = edit.id ∧ (refs.foldl StreamEdit.pushBack edit).stream =
        { edit.stream with records := edit.stream.records.pushAll refs } := by
  induction refs generalizing edit with
  | nil => exact ⟨rfl, rfl⟩
  | cons ref rest ih => exact ih (edit.pushBack ref)

theorem pushInitialReferences_eq (edit : StreamEdit) (firstOffset : Nat) (messages : List MessageId) :
    pushInitialReferences edit firstOffset messages =
      (batchReferences firstOffset messages).foldl StreamEdit.pushBack edit := by
  rw [pushInitialReferences, batchReferences, foldl_map]

theorem batchRetainedBytes_meets {commonSegment : Option Nat} {commonSharedIngressBytes : Nat}
    (common : ∀ {id : Nat} {seg : BrokerPayloadSegment}, commonSegment = some id →
      s.payloadSegments[id]? = some seg → seg.sharedIngressBytes = commonSharedIngressBytes)
    (billed : s.ledger.billed msg = some (project, bytes)) :
    Meets (s.batchRetainedBytes commonSegment commonSharedIngressBytes total msg)
      (fun sum => sum = total + bytes ∧ sum < u64Limit) Overflow := by
  obtain ⟨payload, seg, found, has, _, charge⟩ := Ledger.billed_eq_some.mp billed
  unfold batchRetainedBytes
  apply Meets.orElse
  · intro absent
    cases found.symm.trans absent
  intro record recorded
  have same : record = payload := Option.some.inj (recorded.symm.trans found)
  subst same
  have counted : Meets (s.batchPayloadBytes commonSegment commonSharedIngressBytes record)
      (fun charged => charged = bytes) Overflow := by
    unfold batchPayloadBytes
    split
    next shared =>
      rw [← common shared.symm has]
      cases sum : checkedSum record.retainedBytes seg.sharedIngressBytes with
      | none => simp [orElse, Meets, Overflow, overflowErrors]
      | some value => exact (checkedSum_eq_some.mp sum).1.symm.trans charge
    · exact accountedPayloadBytes_meets recorded billed
  apply Meets.bind counted
  rintro charged rfl
  cases sum : checkedSum total charged with
  | none => simp [orElse, Meets, Overflow, overflowErrors]
  | some value =>
    obtain ⟨added, fits⟩ := checkedSum_eq_some.mp sum
    exact ⟨added.symm, added ▸ fits⟩

theorem batchRetainedBytes_foldlM {commonSegment : Option Nat} {commonSharedIngressBytes : Nat}
    (common : ∀ {id : Nat} {seg : BrokerPayloadSegment}, commonSegment = some id →
      s.payloadSegments[id]? = some seg → seg.sharedIngressBytes = commonSharedIngressBytes)
    (charged : ∀ msg ∈ messages, ∃ bytes, s.ledger.billed msg = some (project, bytes)) (total : Nat) :
    Meets (messages.foldlM (s.batchRetainedBytes commonSegment commonSharedIngressBytes) total)
      (fun sum => sum = total + (messages.map s.ledger.bill).sum) Overflow := by
  induction messages generalizing total with
  | nil => exact rfl
  | cons msg rest ih =>
    obtain ⟨bytes, billed⟩ := charged msg (by simp)
    rw [foldlM_cons]
    apply Meets.bind (batchRetainedBytes_meets common billed)
    rintro middle ⟨added, _⟩
    refine Meets.imp (ih (fun other mem => charged other (mem_cons_of_mem _ mem)) middle) ?_
    rintro sum rfl
    rw [map_cons, sum_cons, Ledger.bill_of_billed billed, added, Nat.add_assoc]

theorem appendInitialReferencesBatch_meets (inv : Invariant runtime orderly s floating missing stale)
    (target : InProject s project id)
    (charged : ∀ msg ∈ messages, ∃ bytes, s.ledger.billed msg = some (project, bytes)) :
    Meets (s.appendInitialReferencesBatch id messages)
      (fun appended => Appended project s appended.1
          (fun other => if other = id then messages.map Draft.initial else []) ∧
        (∃ stream, s.streams[id]? = some stream ∧ appended.2 = stream.nextOffset) ∧
        Invariant runtime orderly appended.1 (fun other => floating other ∧
          other ∉ messages) missing stale)
      Overflow := by
  obtain ⟨slot, within, located⟩ := target
  obtain ⟨stream, here⟩ := inv.stands located
  unfold appendInitialReferencesBatch
  apply Meets.bind (batchRetainedBytes_foldlM ?_ charged 0)
  · rintro total rfl
    apply Meets.passed (orElse_eq_ok.mpr here.editStream)
    refine meets_checkedSum (by simp [overflowErrors]) fun room => ?_
    refine meets_checkedSum (by simp [overflowErrors]) fun affordable => ?_
    refine and_left_comm.mp ⟨⟨stream, here.stream, rfl⟩, ?_⟩
    have bills : ((batchReferences stream.nextOffset messages).map fun ref =>
        s.ledger.bill ref.message).sum = 0 + (messages.map s.ledger.bill).sum := by
      calc _ = (((batchReferences stream.nextOffset messages).map (·.message)).map
        s.ledger.bill).sum := by
            rw [map_map]
            rfl
        _ = _ := by rw [batchReferences_messages, Nat.zero_add]
    have length : (batchReferences stream.nextOffset messages).length = messages.length := by
      simp [batchReferences]
    obtain ⟨sameId, pushed⟩ := foldl_pushBack (batchReferences stream.nextOffset messages)
      { id, stream, changes := [] }
    have member : ∀ {ref}, ref ∈ batchReferences stream.nextOffset messages →
        ref.message ∈ messages ∧ ref.delivery = .ready := by
      intro ref inside
      obtain ⟨index, found⟩ := mem_iff_getElem?.mp inside
      rw [getElem?_batchReferences, Option.map_eq_some_iff] at found
      obtain ⟨msg, listed, rfl⟩ := found
      exact ⟨mem_of_getElem? listed, rfl⟩
    have after := inv.append (batchReferences stream.nextOffset messages)
      ((batchReferences stream.nextOffset messages).foldl StreamEdit.pushBack
        { id, stream, changes := [] }).changes here ?_ ?_ (fun _ inside => (member inside).2)
      (length ▸ room) (bills ▸ affordable)
    · have appended := here.appended inv.owned (inv.logs here.standing) (messages.map Draft.initial)
        ((batchReferences stream.nextOffset messages).foldl StreamEdit.pushBack
          { id, stream, changes := [] }).changes (0 + (messages.map s.ledger.bill).sum)
      rw [← batchReferences_eq_placeAll, within] at appended
      simp only [pushInitialReferences_eq, pushed, sameId]
      simp only [StreamState.appended, bills, length] at after appended
      refine ⟨appended, after.weaken ?_ fun _ outlived => outlived⟩
      rintro other ⟨floats, apart⟩
      refine ⟨floats, fun listed => ?_⟩
      rw [← batchReferences_messages stream.nextOffset messages] at listed
      obtain ⟨ref, inside, same⟩ := mem_map.mp listed
      exact apart ref inside same.symm
    · intro ref inside
      rw [within]
      exact charged _ (member inside).1
    · intro index ref found
      rw [getElem?_batchReferences, Option.map_eq_some_iff] at found
      obtain ⟨msg, _, rfl⟩ := found
      rfl
  · intro segmentId segment shared has
    rw [shared]
    simp [has]

end Append

end IronGraph.Broker
