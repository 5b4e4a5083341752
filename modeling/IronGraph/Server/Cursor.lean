import IronGraph.Types
import IronGraph.Library.Outcome
import IronGraph.Server.Interrupt

/-!
PULL and DISCARD on a Bolt connection: the rows of a query result pass from the events of its worker
through a batch that is encoded piece by piece and one record that is looked at ahead. How a row is
written is a parameter.
-/

namespace IronGraph.Bolt

open Outcome List

variable {V : Type}

structure CursorBatch (V : Type) where
  rowCount : Nat
  nextRow : Nat
  columns : List (List V)
  encodedRecords : List Bytes

structure Summary where
  bookmark : Bookmark
  elapsedMs : Nat
  truncated : Bool

inductive QueryStreamEvent (V : Type) where
  | catalog
  | schema (requestId : Uuid)
  | batch (requestId : Uuid) (sequence rowCount : Nat) (columns : List (List V))
  | summary (requestId : Uuid) (summary : Summary)
  | error (requestId : Uuid) (error : Error)

/-- The receiver holds all that the worker will send before it closes the channel. -/
structure BoltCursor (V : Type) where
  requestId : Uuid
  receiver : List (QueryStreamEvent V)
  worker : Result Unit
  batch : Option (CursorBatch V)
  pendingRecord : Option Bytes
  fieldCount : Option Nat
  expectedSequence : Nat
  summary : Option Summary
  terminal : Bool

def violation (message : String) : Error := .new .protocolViolation message

section Encode

variable (encode : List V → Result Bytes)

/-- The loop over the rows still to be encoded, until the records of this piece have 64 KiB. Nobody
cancels the cursor meanwhile; the source looks at its token before each row. -/
def encodeRows : Nat → Nat → CursorBatch V → Result (CursorBatch V)
  | 0, _, batch => .ok batch
  | left + 1, bytes, batch =>
    if bytes < 64 * 1024 then do
      require (batch.columns.all (!·.isEmpty))
        (violation "query batch column is shorter than its row count")
      let payload ← encode (batch.columns.filterMap head?)
      encodeRows left (saturatingAdd bytes payload.length) { batch with
        nextRow := batch.nextRow + 1
        columns := batch.columns.map tail
        encodedRecords := batch.encodedRecords ++ [payload] }
    else .ok batch

def CursorBatch.nextRecord (batch : CursorBatch V) : Result (Option (Bytes × CursorBatch V)) :=
  match batch.encodedRecords with
  | record :: encodedRecords => .ok (some (record, { batch with encodedRecords }))
  | [] =>
    if batch.nextRow < batch.rowCount then do
      let batch ← encodeRows encode (batch.rowCount - batch.nextRow) 0 batch
      match batch.encodedRecords with
      | record :: encodedRecords => .ok (some (record, { batch with encodedRecords }))
      -- the source panics here
      | [] => .error (.internal "nonempty cursor batch encoded a row")
    else .ok none

namespace BoltCursor

variable (cursor : BoltCursor V)

def verifyRequest (requestId : Uuid) : Result Unit :=
  require (requestId == cursor.requestId)
    (violation "query cursor emitted an event for another request")

def receive : List (QueryStreamEvent V) → BoltCursor V → Result (Option Bytes × BoltCursor V)
  | [], cursor => .ok (none, { cursor with receiver := [], terminal := true })
  | .catalog :: events, cursor => receive events cursor
  | .schema requestId :: _, cursor => do
    cursor.verifyRequest requestId
    .error (violation "query cursor emitted duplicate schema")
  | .batch requestId sequence rowCount columns :: events, cursor => do
    cursor.verifyRequest requestId
    require (sequence == cursor.expectedSequence) (violation "query batch sequence is discontinuous")
    let cursor := { cursor with expectedSequence := saturatingAdd cursor.expectedSequence 1 }
    require (columns.length == cursor.fieldCount.getD 0 && columns.all (·.length == rowCount))
      (violation "query batch does not match its schema or row count")
    match ← CursorBatch.nextRecord encode { rowCount, nextRow := 0, columns, encodedRecords := [] } with
    | some (record, batch) => .ok (some record, { cursor with receiver := events, batch := some batch })
    | none => receive events cursor
  | .summary requestId summary :: events, cursor => do
    cursor.verifyRequest requestId
    .ok (none, { cursor with receiver := events, summary := some summary, terminal := true })
  | .error requestId error :: _, cursor => do
    cursor.verifyRequest requestId
    .error error

def proceed : Result (Option Bytes × BoltCursor V) :=
  if cursor.terminal then .ok (none, cursor) else receive encode cursor.receiver cursor

def nextRecord : Result (Option Bytes × BoltCursor V) := match cursor.pendingRecord with
  | some record => .ok (some record, { cursor with pendingRecord := none })
  | none => do
    match ← cursor.batch.elim (.ok none) (CursorBatch.nextRecord encode) with
    | some (record, batch) => .ok (some record, { cursor with batch := some batch })
    | none => proceed encode { cursor with batch := none }

def hasMore : Result (Bool × BoltCursor V) := do
  match ← cursor.nextRecord encode with
  | (some record, cursor) => .ok (true, { cursor with pendingRecord := some record })
  | (none, cursor) => .ok (false, cursor)

/-- The loop of a request: the records it takes and whether the result ended. -/
def consume : Nat → BoltCursor V → Result (List Bytes × Bool × BoltCursor V)
  | 0, cursor => .ok ([], false, cursor)
  | count + 1, cursor => do
    match ← cursor.nextRecord encode with
    | (none, cursor) => .ok ([], true, cursor)
    | (some record, cursor) =>
      let (records, exhausted, cursor) ← consume count cursor
      .ok (record :: records, exhausted, cursor)

end BoltCursor

structure BoltSession (V : Type) where
  state : SessionState
  cursor : Option (BoltCursor V)
  streamReturnState : SessionState

structure Fetch where
  n : Option Int
  qid : Option Int

inductive Request where
  | pull (fetch : Fetch)
  | discard (fetch : Fetch)

structure Reply where
  sent : List Bytes
  skipped : List Bytes
  hasMore : Bool
  summary : Option Summary

namespace Request

def fetch : Request → Fetch
  | .pull fetch | .discard fetch => fetch

def name : Request → String
  | .pull _ => "PULL"
  | .discard _ => "DISCARD"

def reply (records : List Bytes) (summary : Option Summary) : Request → Reply
  | .pull _ => { sent := records, skipped := [], hasMore := summary.isNone, summary }
  | .discard _ => { sent := [], skipped := records, hasMore := summary.isNone, summary }

end Request

def SessionState.name : SessionState → String
  | .authentication => "Authentication"
  | .ready => "Ready"
  | .streaming => "Streaming"
  | .transaction => "Transaction"
  | .failed => "Failed"
  | .closed => "Closed"

def protocolState (message : String) (state : SessionState) : Error :=
  violation s!"{message} is not valid in Bolt state {state.name}"

def usizeMax : Nat := u64Limit - 1

def fetchCount (request : Fetch) (message : String) (explicitTransaction : Bool) : Result Nat := do
  require (explicitTransaction || request.qid.isNone)
    (violation "qid is valid only for an explicit transaction result")
  require (request.qid.all fun qid => qid == -1 || qid == 0)
    (violation "only the current Bolt result cursor may be consumed")
  let maximum ← orElse request.n (violation s!"{message} requires n")
  require (!(maximum == 0 || decide (maximum < -1))) (violation s!"{message} n must be -1 or positive")
  .ok (if maximum = -1 then usizeMax else maximum.toNat)

namespace BoltSession

/-- The end of a request that finds no further row: the worker is done, and its summary is the
answer. -/
def finish (session : BoltSession V) (request : Request) (records : List Bytes)
    (cursor : BoltCursor V) : Result (Reply × BoltSession V) := do
  cursor.worker
  let summary ← orElse cursor.summary (violation "query cursor closed without a terminal summary")
  .ok (request.reply records (some summary), { session with
    cursor := none, state := session.streamReturnState })

def fetch (session : BoltSession V) (request : Request) : Result (Reply × BoltSession V) := do
  require (session.state == .streaming) (protocolState request.name session.state)
  let count ← fetchCount request.fetch request.name (session.streamReturnState == .transaction)
  let cursor ← orElse session.cursor (.internal "Bolt streaming state has no cursor")
  let (records, exhausted, cursor) ← cursor.consume encode count
  let (more, cursor) ← if exhausted || count == usizeMax then .ok (!exhausted, cursor)
      else cursor.hasMore encode
  if more then .ok (request.reply records none, { session with cursor := some cursor })
  else session.finish request records cursor

def pull (session : BoltSession V) (fetch : Fetch) : Result (Reply × BoltSession V) :=
  session.fetch encode (.pull fetch)

def discard (session : BoltSession V) (fetch : Fetch) : Result (Reply × BoltSession V) :=
  session.fetch encode (.discard fetch)

def serve : List Request → BoltSession V → Result (List Reply × BoltSession V)
  | [], session => .ok ([], session)
  | request :: requests, session => do
    let (reply, session) ← match request with
      | .pull fetch => session.pull encode fetch
      | .discard fetch => session.discard encode fetch
    let (replies, session) ← serve requests session
    .ok (reply :: replies, session)

/-- The session after RUN, which has taken the schema from the events. -/
def running (explicit : Bool) (requestId : Uuid) (fields : Nat) (events : List (QueryStreamEvent V)) :
    BoltSession V where
  state := .streaming
  streamReturnState := if explicit then .transaction else .ready
  cursor := some {
    requestId, receiver := events, worker := .ok (), batch := none, pendingRecord :=
      none, fieldCount := some fields,
    expectedSequence := 0, summary := none, terminal := false }

end BoltSession

def rowsOf : Nat → List (List V) → List (List V)
  | 0, _ => []
  | left + 1, columns => columns.filterMap head? :: rowsOf left (columns.map tail)

def resultRows : List (QueryStreamEvent V) → List (List V)
  | .batch _ _ rowCount columns :: events => rowsOf rowCount columns ++ resultRows events
  | .catalog :: events => resultRows events
  | _ => []

/-- The events of a whole result, from the batch with a sequence number on. -/
def Complete (requestId : Uuid) (fields : Nat) : Nat → List (QueryStreamEvent V) → Prop
  | sequence, .catalog :: events => Complete requestId fields sequence events
  | sequence, .batch owner number rowCount columns :: events => owner = requestId ∧ number = sequence ∧
      (columns.length = fields ∧ ∀ column ∈ columns, column.length = rowCount) ∧
      Complete requestId fields (saturatingAdd sequence 1) events
  | _, .summary owner _ :: _ => owner = requestId
  | _, _ => False

def CursorBatch.outcomes (batch : CursorBatch V) : List (Result Bytes) :=
  batch.encodedRecords.map .ok ++ (rowsOf (batch.rowCount - batch.nextRow) batch.columns).map encode

def CursorBatch.Full (batch : CursorBatch V) : Prop :=
  ∀ column ∈ batch.columns, column.length = batch.rowCount - batch.nextRow

section Batch

variable {encode} {batch : CursorBatch V}

theorem encodeRows_meets {left bytes : Nat} (full : batch.Full)
    (remains : batch.rowCount - batch.nextRow = left) :
    Meets (encodeRows encode left bytes batch)
      (fun after => after.Full ∧ after.outcomes encode = batch.outcomes encode ∧
        (batch.encodedRecords ≠ [] ∨ bytes < 64 * 1024 ∧ 0 < left → after.encodedRecords ≠ []))
      (fun error => .error error ∈ batch.outcomes encode) := by
  induction left generalizing bytes batch with
  | zero => exact ⟨full, rfl, fun some => some.resolve_right (by omega)⟩
  | succ left ih =>
    unfold encodeRows
    split
    next small =>
      have less : batch.rowCount - (batch.nextRow + 1) = left := by omega
      refine Meets.require ?_ ?_
      · simp only [all_eq_true, Bool.not_eq_true', isEmpty_eq_false_iff]
        rintro column mem rfl
        exact absurd (full [] mem) (by simp [remains])
      cases written : encode (batch.columns.filterMap head?) with
      | error error => simp [CursorBatch.outcomes, remains, rowsOf, written, Meets, bind, Except.bind]
      | ok payload =>
        apply Meets.passed rfl
        have same : CursorBatch.outcomes encode { batch with
            nextRow := batch.nextRow + 1
            columns := batch.columns.map tail
            encodedRecords := batch.encodedRecords ++ [payload] } = batch.outcomes encode := by
          simp [CursorBatch.outcomes, remains, less, rowsOf, written]
        rw [← same]
        refine (ih ?_ less).imp fun after ⟨held, kept, more⟩ =>
          ⟨held, kept, fun _ => more (.inl (by simp))⟩
        intro column mem
        obtain ⟨longer, listed, rfl⟩ := mem_map.mp mem
        rw [length_tail, full longer listed, remains, less]
        rfl
    next large => exact ⟨full, rfl, fun some => some.resolve_right fun here => large here.1⟩

variable (encode) in
theorem CursorBatch.Full.nextRecord_meets (full : batch.Full) : Meets (batch.nextRecord encode)
    (fun taken => match taken with
      | none => batch.outcomes encode = []
      | some (record, after) =>
        batch.outcomes encode = .ok record :: after.outcomes encode ∧ after.Full)
    (fun error => .error error ∈ batch.outcomes encode) := by
  unfold CursorBatch.nextRecord
  split
  next front => exact ⟨by simp [outcomes, front], full⟩
  next empty =>
    split
    next unread =>
      refine Meets.bind (encodeRows_meets full rfl) fun after ⟨held, same, more⟩ => ?_
      cases front : after.encodedRecords with
      | nil => exact absurd front (more (.inr ⟨by decide, by omega⟩))
      | cons record recs => exact ⟨by rw [← same]; simp [outcomes, front], held⟩
    next read => simp [Meets, outcomes, empty, Nat.sub_eq_zero_of_le (Nat.le_of_not_lt read), rowsOf]

end Batch

namespace BoltCursor

def upcoming (cursor : BoltCursor V) : List (Result Bytes) :=
  if cursor.terminal then [] else (resultRows cursor.receiver).map encode

def outcomes (cursor : BoltCursor V) : List (Result Bytes) :=
  cursor.pendingRecord.toList.map .ok ++ (cursor.batch.elim [] (·.outcomes encode) ++
    cursor.upcoming encode)

def Done (cursor : BoltCursor V) : Prop := cursor.worker = .ok () ∧ cursor.summary.isSome

structure Open (cursor : BoltCursor V) : Prop where
  worker : cursor.worker = .ok ()
  batch : ∀ batch, cursor.batch = some batch → batch.Full
  events : if cursor.terminal then cursor.summary.isSome
    else Complete cursor.requestId (cursor.fieldCount.getD 0) cursor.expectedSequence cursor.receiver

def Leaves (outcomes : List (Result Bytes)) (taken : Option Bytes × BoltCursor V) : Prop :=
  taken.2.pendingRecord = none ∧ match taken.1 with
    | none => outcomes = [] ∧ taken.2.Done
    | some record => outcomes = .ok record :: taken.2.outcomes encode ∧ taken.2.Open

variable {encode} {cursor : BoltCursor V}

theorem receive_meets {events : List (QueryStreamEvent V)} (worker : cursor.worker = .ok ())
    (quiet : cursor.pendingRecord = none) (runs : cursor.terminal = false)
    (complete : Complete cursor.requestId (cursor.fieldCount.getD 0) cursor.expectedSequence events) :
    Meets (receive encode events cursor) (Leaves encode ((resultRows events).map encode))
      (fun error => .error error ∈ (resultRows events).map encode) := by
  induction events generalizing cursor with
  | nil => cases complete
  | cons event events ih =>
    cases event with
    | catalog => exact ih worker quiet runs complete
    | schema | error => cases complete
    | summary requestId summary =>
      obtain rfl : requestId = _ := complete
      exact Meets.require (beq_self_eq_true _) ⟨quiet, rfl, worker, rfl⟩
    | batch requestId sequence rowCount columns =>
      obtain ⟨rfl, rfl, ⟨width, full⟩, later⟩ := complete
      refine Meets.require (beq_self_eq_true _) (Meets.require (beq_self_eq_true _)
        (Meets.require ?_ ?_))
      · simpa [width] using full
      have whole : CursorBatch.Full { rowCount, nextRow := 0, columns, encodedRecords := [] } := full
      have met := whole.nextRecord_meets encode
      simp only [resultRows, map_append]
      refine Meets.bind (met.mono (fun _ => id) fun error fails => mem_append_left _ fails) ?_
      rintro (_ | ⟨record, batch⟩) taken
      · rw [show (rowsOf rowCount columns).map encode = [] from taken]
        exact ih worker quiet runs later
      · refine ⟨quiet, ?_, worker, ?_, ?_⟩
        · rw [show (rowsOf rowCount columns).map encode = _ from taken.1]
          simp [outcomes, upcoming, quiet, runs]
        · rintro _ ⟨⟩
          exact taken.2
        · simpa [runs] using later

theorem Open.proceed_meets (opened : cursor.Open) (quiet : cursor.pendingRecord = none) :
    Meets (cursor.proceed encode) (Leaves encode (cursor.upcoming encode))
      (fun error => .error error ∈ cursor.upcoming encode) := by
  obtain ⟨worker, _, events⟩ := opened
  unfold proceed upcoming
  cases runs : cursor.terminal with
  | true => exact ⟨quiet, rfl, worker, by simpa [runs] using events⟩
  | false => exact receive_meets worker quiet runs (by simpa [runs] using events)

theorem Open.nextRecord_meets (opened : cursor.Open) : Meets (cursor.nextRecord encode)
    (Leaves encode (cursor.outcomes encode)) (fun error => .error error ∈ cursor.outcomes encode) := by
  obtain ⟨worker, full, events⟩ := opened
  obtain ⟨request, receiver, _, batch, pending, fields, expected, summary, terminal⟩ := cursor
  cases pending with
  | some record => exact ⟨rfl, rfl, worker, full, events⟩
  | none =>
    cases batch with
    | none => exact Open.proceed_meets ⟨worker, full, events⟩ rfl
    | some batch =>
      refine Meets.bind (((full batch rfl).nextRecord_meets encode).mono (fun _ => id) fun _ =>
        mem_append_left _) ?_
      rintro (_ | ⟨record, after⟩) taken
      · simp only [outcomes, Option.elim_some, show batch.outcomes encode = [] from taken]
        exact Open.proceed_meets ⟨worker, fun _ => nofun, events⟩ rfl
      · refine ⟨rfl, by simp [outcomes, upcoming, taken.1], worker, ?_, events⟩
        rintro _ ⟨⟩
        exact taken.2

variable (encode) in
theorem Open.hasMore_meets (opened : cursor.Open) : Meets (cursor.hasMore encode)
    (fun (more, after) => if more then cursor.outcomes encode ≠ [] ∧
      after.outcomes encode = cursor.outcomes encode ∧
        after.Open else cursor.outcomes encode = [] ∧ after.Done)
    (fun error => .error error ∈ cursor.outcomes encode) := by
  refine Meets.bind opened.nextRecord_meets ?_
  rintro ⟨_ | record, after⟩ ⟨quiet, leaves⟩
  · exact leaves
  · obtain ⟨first, worker, full, events⟩ := leaves
    refine ⟨by simp [first], ?_, worker, full, events⟩
    rw [first]
    simp [outcomes, upcoming, show after.pendingRecord = none from quiet]

variable (encode) in
theorem Open.consume_meets (opened : cursor.Open) (count : Nat) : Meets (cursor.consume encode count)
    (fun (recs, exhausted, after) => (cursor.outcomes encode).take count = recs.map .ok ∧
      if exhausted then (cursor.outcomes encode).length < count ∧ after.Done
      else after.outcomes encode = (cursor.outcomes encode).drop count ∧
        count ≤ (cursor.outcomes encode).length ∧ after.Open)
    (fun error => .error error ∈ cursor.outcomes encode) := by
  induction count generalizing cursor with
  | zero => exact ⟨rfl, rfl, Nat.zero_le _, opened⟩
  | succ count ih =>
    refine Meets.bind opened.nextRecord_meets ?_
    rintro ⟨_ | record, after⟩ ⟨-, leaves⟩
    · exact ⟨by rw [leaves.1]; rfl, by rw [leaves.1]; exact Nat.succ_pos _, leaves.2⟩
    · rw [leaves.1]
      refine Meets.bind ((ih leaves.2).mono (fun _ => id) fun _ => mem_cons_of_mem _) ?_
      rintro ⟨recs, exhausted, last⟩ ⟨taken, ends⟩
      refine ⟨congrArg _ taken, ?_⟩
      cases exhausted with
      | true => exact ends.imp_left Nat.succ_lt_succ
      | false => exact ends.imp_right (.imp_left Nat.succ_le_succ)

end BoltCursor

/-- A request for a positive number of rows or for all, of the current result. -/
def Fetch.Valid (request : Fetch) (explicit : Bool) : Prop :=
  (∀ qid, request.qid = some qid → explicit = true ∧ (qid = -1 ∨ qid = 0)) ∧
    ∃ n, request.n = some n ∧ (n = -1 ∨ 0 < n ∧ n < 2 ^ 63)

def Fetch.share (request : Fetch) (remaining : Nat) : Nat :=
  if request.n = some (-1) then remaining else min (request.n.getD 0).toNat remaining

theorem fetchCount_eq {request : Fetch} {explicit : Bool} (valid : request.Valid explicit)
    (msg : String) :
    ∃ count, fetchCount request msg explicit = .ok count ∧
      ∀ remaining, remaining < usizeMax → request.share remaining = min count remaining := by
  obtain ⟨current, n, named, positive⟩ := valid
  have ours : (explicit || request.qid.isNone) = true ∧
      (request.qid.all fun qid => qid == -1 || qid == 0) = true := by
    cases asked : request.qid with
    | none => simp
    | some qid => simpa using current qid asked
  have bounded : (!(n == 0 || decide (n < -1))) = true := by
    simp
    omega
  refine ⟨if n = -1 then usizeMax else n.toNat, ?_, ?_⟩
  · simp [fetchCount, ours, named, bounded, require, orElse, bind, Except.bind]
  · intro remaining less
    simp only [Fetch.share, named, Option.some.injEq, Option.getD_some]
    split <;> omega

/-- The requests are answered one after the other, each with the next segment of the rows. -/
inductive Served : List Request → List (List V) → List Reply → List (List V) → Prop
  | nil {rows} : Served [] rows [] rows
  | cons {request requests segment remaining records summary replies rest}
      (encoded : segment.map encode = records.map .ok)
      (share : segment.length = request.fetch.share (segment ++ remaining).length)
      (more : (request.reply records summary).hasMore = true ↔ remaining ≠ [])
      (later : Served requests remaining replies rest) :
      Served (request :: requests) (segment ++ remaining)
        (request.reply records summary :: replies) rest

/-- How the requests can end: all are served, and the session streams as long as rows remain; or a
row cannot be encoded, or nothing remained for a further request. -/
def Delivers (requests : List Request) (rows : List (List V))
    (result : Result (List Reply × BoltSession V)) : Prop :=
  Meets result (fun (replies, after) => ∃ rest, Served encode requests rows replies rest ∧
      (after.state = .streaming ↔ requests = [] ∨ rest ≠ []))
    (fun error => .error error ∈ rows.map encode ∨
      ∃ before later replies, requests = before ++ later ∧ before ≠ [] ∧
      later ≠ [] ∧ Served encode before rows replies [])

namespace BoltSession

structure Serves (explicit : Bool) (rows : List (List V)) (session : BoltSession V) : Prop where
  state : session.state = .streaming
  back : session.streamReturnState = if explicit then .transaction else .ready
  cursor : ∃ cursor, session.cursor = some cursor ∧ cursor.Open ∧
    cursor.outcomes encode = rows.map encode

variable {encode} {explicit : Bool} {rows : List (List V)} {session : BoltSession V}

variable (encode explicit rows) in
def Takes (request : Request) (share : Nat) : Reply × BoltSession V → Prop := fun (reply, after) =>
  ∃ segment remaining records summary, rows = segment ++ remaining ∧
    reply = request.reply records summary ∧ segment.map encode = records.map .ok ∧
      segment.length = share ∧ (summary.isNone = true ↔ remaining ≠ []) ∧
    if remaining = [] then after.state ≠ .streaming else after.Serves encode explicit remaining

theorem Serves.fetch_meets {request : Request} (serves : session.Serves encode explicit rows)
    (valid : request.fetch.Valid explicit) (bounded : rows.length < usizeMax) :
    Meets (session.fetch encode request)
      (Takes encode explicit rows request (request.fetch.share rows.length))
      (fun error => .error error ∈ rows.map encode) := by
  obtain ⟨state, back, cursor, has, opened, whole⟩ := serves
  have transaction : (session.streamReturnState == .transaction) = explicit := by
    rw [back]
    cases explicit <;> rfl
  obtain ⟨count, counted, share⟩ := fetchCount_eq valid request.name
  rw [share _ bounded]
  refine Meets.require (by simp [state]) (Meets.passed (transaction ▸ counted)
    (Meets.passed (by rw [has]; rfl) ?_))
  refine Meets.bind (whole ▸ opened.consume_meets encode count) ?_
  rintro ⟨recs, exhausted, last⟩ ⟨taken, ends⟩
  rw [← map_take] at taken
  rw [length_map] at ends
  have finished : ∀ last : BoltCursor V, rows.length ≤ count → last.Done →
      Meets (session.finish request recs last) (Takes encode explicit rows request
        (min count rows.length)) (fun error => .error error ∈ rows.map encode) := by
    intro last short done
    obtain ⟨summary, told⟩ := Option.isSome_iff_exists.mp done.2
    rw [take_of_length_le short] at taken
    refine Meets.passed done.1 (Meets.passed (by rw [told]; rfl) ⟨rows, [], recs, _,
      (append_nil _).symm, rfl, taken, (Nat.min_eq_right short).symm, iff_of_false nofun (by simp), ?_⟩)
    rw [if_pos rfl]
    simp only [back]
    cases explicit <;> decide
  cases exhausted with
  | true => exact finished last (Nat.le_of_lt ends.1) ends.2
  | false =>
    obtain ⟨left, long, held⟩ := ends
    rw [← map_drop] at left
    have finite : (count == usizeMax) = false := by simp; omega
    simp only [finite, Bool.false_or, Bool.false_eq_true, if_false]
    refine Meets.bind ((left ▸ held.hasMore_meets encode).mono (fun _ => id)
      fun _ fails => map_subset _ (drop_subset _ _) fails) ?_
    rintro ⟨more, after⟩ ends
    cases more with
    | true =>
      have some' : rows.drop count ≠ [] := by simpa using ends.1
      refine ⟨rows.take count, rows.drop count, recs, none, (take_append_drop _ _).symm, rfl,
        taken, by simp, iff_of_true rfl some', ?_⟩
      rw [if_neg some']
      exact ⟨state, back, after, rfl, ends.2.2, ends.2.1⟩
    | false => exact finished after (by simpa using ends.1) ends.2

theorem serve_cons (request : Request) (requests : List Request) :
    session.serve encode (request :: requests) = (do
      let (reply, session) ← session.fetch encode request
      let (replies, session) ← serve encode requests session
      .ok (reply :: replies, session)) := by
  cases request <;> rfl

theorem Serves.delivers {requests : List Request} (serves : session.Serves encode explicit rows)
    (valid : ∀ request ∈ requests, request.fetch.Valid explicit) (bounded : rows.length < usizeMax) :
    Delivers encode requests rows (session.serve encode requests) := by
  induction requests generalizing session rows with
  | nil => exact ⟨rows, .nil, iff_of_true serves.state (.inl rfl)⟩
  | cons request requests ih =>
    rw [forall_mem_cons] at valid
    rw [serve_cons]
    refine Meets.bind ((serves.fetch_meets valid.1 bounded).mono (fun _ => id) fun _ => .inl) ?_
    rintro ⟨_, after⟩ ⟨seg, remaining, recs, summary, rfl, rfl, encoded, share, none', left⟩
    have more : (request.reply recs summary).hasMore = true ↔ remaining ≠ [] := by
      cases request <;> exact none'
    by_cases done : remaining = []
    · rw [if_pos done] at left
      subst done
      cases requests with
      | nil => exact ⟨[], .cons encoded share more .nil, iff_of_false left (by simp)⟩
      | cons next later =>
        have refused : ∃ error, after.fetch encode next = .error error := by
          simp [fetch, require, left, bind, Except.bind]
        obtain ⟨error, refused⟩ := refused
        simp only [serve_cons, refused]
        exact .inr ⟨[request], next :: later, _, rfl, by simp, by simp, .cons encoded share more .nil⟩
    · rw [if_neg done] at left
      rw [length_append] at bounded
      refine Meets.bind ((ih left valid.2 (by omega)).mono (fun _ => id) ?_) ?_
      · rintro error (fails | ⟨before, later, replies, rfl, -, others, served⟩)
        · exact .inl (map_subset _ (subset_append_right _ _) fails)
        · exact .inr ⟨request :: before, later, _, rfl, by simp, others,
            .cons encoded share more served⟩
      · rintro ⟨replies, final⟩ ⟨rest, served, streaming⟩
        refine ⟨rest, .cons encoded share more served, streaming.trans ⟨fun serving => .inr ?_,
          fun serving => .inr ?_⟩⟩
        · rcases serving with rfl | more
          · cases served
            exact done
          · exact more
        · exact serving.resolve_left (by simp)

end BoltSession

/-- PULL and DISCARD pass on the rows of a result in order and once each, as many as each of them
asks for and there are, however the rows are split into batches. -/
theorem serve_segments (explicit : Bool) {requestId : Uuid} {fields : Nat}
    {events : List (QueryStreamEvent V)}
    (complete : Complete requestId fields 0 events) (bounded : (resultRows events).length < usizeMax)
    {requests : List Request} (valid : ∀ request ∈ requests, request.fetch.Valid explicit) :
    Delivers encode requests (resultRows events)
      ((BoltSession.running explicit requestId fields events).serve encode requests) := by
  refine BoltSession.Serves.delivers ⟨rfl, rfl, _, rfl, ?_, rfl⟩ valid bounded
  exact ⟨rfl, fun _ => nofun, complete⟩

end Encode

def threeRows : List (QueryStreamEvent Nat) :=
  [.batch 7 0 2 [[1, 2]], .catalog, .batch 7 1 0 [[]], .batch 7 2 1 [[3]],
    .summary 7 ⟨default, 0, false⟩]

def oneThenAll : List Request := [.pull ⟨some 1, none⟩, .discard ⟨some (-1), none⟩]

theorem serve_segments_threeRows : resultRows threeRows = [[1], [2], [3]] ∧
    Delivers (fun row => .ok (row.map UInt8.ofNat)) oneThenAll (resultRows threeRows)
      ((BoltSession.running false 7 1 threeRows).serve (fun row =>
        .ok (row.map UInt8.ofNat)) oneThenAll) := by
  refine ⟨rfl, serve_segments _ false ?_ (by decide) ?_⟩
  · simp [threeRows, Complete, saturatingAdd, u64Limit]
  · simp [oneThenAll, Request.fetch, Fetch.Valid]

end IronGraph.Bolt
