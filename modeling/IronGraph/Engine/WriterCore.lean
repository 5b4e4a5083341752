import IronGraph.Engine.MailboxCore

/-!
The ordered writer: one thread that takes queued writes, reserves positions for a batch of them,
applies them in order and hands their records to persistence. Everything it asks of the outside is a
function of an environment state, so that a theorem about every environment is a theorem about every
outcome of the individual steps.
-/

namespace IronGraph

open Outcome Error

inductive MutationKind where
  | graph
  | security
  | policy
  | broker
  | project
deriving Repr, DecidableEq

structure WriteCommand where
  kind : MutationKind
  projectId : Option ProjectId
  requestId : Option Uuid
  commitTimeMillis : Int
  payload : Bytes
deriving Repr, DecidableEq

structure MutationEntry where
  bookmark : Bookmark
  kind : MutationKind
  projectId : Option ProjectId
  requestId : Option Uuid
  commitTimeMillis : Int
  payload : Bytes
deriving Repr, DecidableEq

structure ClientDeadline where
  instant : Option Nat
deriving Repr, DecidableEq

structure QueuedWrite where
  reply : Nat
  command : Option WriteCommand
  deadline : ClientDeadline
  commandPrepared : Bool
deriving Repr, DecidableEq

inductive WriterMessage where
  | write (write : QueuedWrite)
  | flush (reply : Nat)
  | shutdown (reply : Nat)
deriving Repr, DecidableEq

structure CommandReservation where
  token : Option Uuid
  position : Bookmark
  pipelined : Bool
deriving Repr, DecidableEq

inductive CommandReservationOutcome where
  | applied
  | rejected
deriving Repr, DecidableEq

structure MutationApplyResult where
  response : Bytes
  duplicate : Bool
  persistence : Option RecordBatch
deriving Repr, DecidableEq

structure WriteResponse where
  bookmark : Bookmark
  requestId : Option Uuid
  payload : Bytes
  duplicate : Bool
deriving Repr, DecidableEq

structure PreparedWrite where
  mutation : MutationEntry
  reservation : CommandReservation
  requestId : Option Uuid
  reply : Nat
deriving Repr, DecidableEq

structure WriterEnvironment (σ : Type) where
  appliedBookmark : σ → Bookmark
  deadlineExpired : σ → Nat → σ × Bool
  tryLockGate : σ → Nat → σ × Bool
  commitTimeMillis : σ → σ × Option Int
  prepareCommand : σ → WriteCommand → Int → σ × Result WriteCommand
  reserveCommand : σ → WriteCommand → Bookmark → σ × Result CommandReservation
  bodyChecksum : MutationEntry → Result Digest
  completeCommandReservation : σ → CommandReservation → CommandReservationOutcome → σ × Result Unit
  applyMutation : σ → MutationEntry → σ × Result MutationApplyResult
  tryReceive : σ → σ × Option WriterMessage
  blockingReceive : σ → σ × Option WriterMessage

structure Attempt where
  write : PreparedWrite
  batch : Option RecordBatch
deriving Repr, DecidableEq

/-- The writer's queue and flags, the position persistence has been handed, and what it did so far:
the requests it took from the channel, the writes it accepted for application, the calls of apply, the
replies it sent and the batches it published. -/
structure WriterState (σ : Type) where
  environment : σ
  pending : List QueuedWrite
  deferredControl : Option WriterMessage
  failure : Option Error
  stopped : Bool
  publishedIndex : UInt64
  taken : List Nat
  accepted : List PreparedWrite
  attempts : List Attempt
  replies : List (Nat × Result WriteResponse)
  published : List RecordBatch
  barriers : List (Option Nat × Bool)

def maxWriteBatch : Nat := 8192
def persistenceBatchTargetBytes : Nat := 4 * 1024 * 1024

def clientDeadlineExceeded (message : String) : Error := asRetryable .deadlineExceeded message none

variable {σ : Type} (environment : WriterEnvironment σ) (state : σ)

def deadlinePassed (deadline : ClientDeadline) : σ × Bool := match deadline.instant with
  | none => (state, false)
  | some time => environment.deadlineExpired state time

def newMutationEntry (environment : WriterEnvironment σ) (position : Bookmark)
    (command : WriteCommand) : Result MutationEntry := do
  require (position.term != 0 && position.index != 0 && !command.payload.isEmpty)
    (invalidData "mutation term, index, and payload must be non-zero")
  require (!(command.kind == .graph || command.kind == .broker || command.kind == .project) ||
      command.projectId.isSome)
    (invalidData "project-scoped mutation is missing project ID")
  require (!(command.kind == .security || command.kind == .policy) || command.projectId.isNone)
    (invalidData "store-wide mutation must not carry a project ID")
  let entry : MutationEntry :=
    { bookmark := position
      kind := command.kind
      projectId := command.projectId
      requestId := command.requestId
      commitTimeMillis := command.commitTimeMillis
      payload := command.payload }
  let _ ← environment.bodyChecksum entry
  return entry

inductive ItemOutcome where
  | answered (error : Error)
  | heldBack (command : WriteCommand)
  | ready (write : PreparedWrite)

def resolveCommand (item : QueuedWrite) : σ × Result WriteCommand := match item.command with
  | none => (state, .error (internal "queued write lost its command"))
  | some command =>
    if item.commandPrepared then (state, .ok command)
    else
      match environment.commitTimeMillis state with
      | (state, none) => (state, .error (internal "commit time exceeds i64 milliseconds"))
      | (state, some time) => environment.prepareCommand state command time

def lockGate (deadline : ClientDeadline) : σ × Bool := match deadline.instant with
  | none => (state, true)
  | some time => environment.tryLockGate state time

def prepareItem (item : QueuedWrite) (position : Bookmark) (first : Bool) : σ × ItemOutcome :=
  match deadlinePassed environment state item.deadline with
  | (state, true) =>
    (state, .answered (clientDeadlineExceeded "standalone write expired in the writer queue"))
  | (state, false) =>
    match resolveCommand environment state item with
    | (state, .error error) => (state, .answered error)
    | (state, .ok command) =>
      match environment.reserveCommand state command position with
      | (state, .error error) =>
        if error.code = .writeAdmissionFull ∧ first = false then (state, .heldBack command)
        else (state, .answered error)
      | (state, .ok reservation) =>
        match newMutationEntry environment position command with
        | .error error =>
          match environment.completeCommandReservation state reservation .rejected with
          | (state, .ok _) => (state, .answered error)
          | (state, .error failed) => (state, .answered failed)
        | .ok mutation =>
          (state, .ready { mutation, reservation, requestId := command.requestId, reply := item.reply })

namespace WriterState

variable (state : WriterState σ)

def send (reply : Nat) (result : Result WriteResponse) : WriterState σ :=
  { state with replies := state.replies ++ [(reply, result)] }

def enqueue (item : QueuedWrite) : WriterState σ :=
  { state with pending := state.pending ++ [item], taken := state.taken ++ [item.reply] }

def rejectFront (error : Error) : WriterState σ := match state.pending with
  | [] => state
  | item :: rest => { state with pending := rest }.send item.reply (.error error)

end WriterState

/-- The inner receive loop, which stops at an empty channel, at a control message and after `room`
writes. -/
def pullArrivals (environment : WriterEnvironment σ) : Nat → WriterState σ → WriterState σ
  | 0, state => state
  | room + 1, state =>
    if state.deferredControl.isSome then state else
      match environment.tryReceive state.environment with
      | (next, none) => { state with environment := next }
      | (next, some (.write item)) =>
        pullArrivals environment room ({ state with environment := next }.enqueue item)
      | (next, some control) => { state with environment := next, deferredControl := some control }

/-- Pops requests from the front of the queue and answers them, until one of them is ready at
`position`, is held back, or the queue is empty. -/
def prepareNext (environment : WriterEnvironment σ) (position : Bookmark) (first : Bool) :
    List QueuedWrite → WriterState σ → WriterState σ × Option PreparedWrite
  | [], state => (state, none)
  | item :: rest, state =>
    match prepareItem environment state.environment item position first with
    | (next, .answered error) =>
      prepareNext environment position first rest
        ({ state with environment := next, pending := rest }.send item.reply (.error error))
    | (next, .heldBack command) =>
      let item := { item with command := some command, commandPrepared := true }
      ({ state with environment := next, pending := item :: rest }, none)
    | (next, .ready write) =>
      ({ state with environment := next, pending := rest, accepted := state.accepted ++ [write] },
        some write)

def prepareLoop (environment : WriterEnvironment σ) (term : UInt64) :
    Nat → UInt64 → Nat → List PreparedWrite → WriterState σ → WriterState σ × List PreparedWrite
  | 0, _, _, prepared, state => (state, prepared)
  | slots + 1, nextIndex, preparedBytes, prepared, state =>
    let position := { term, index := nextIndex }
    match prepareNext environment position prepared.isEmpty state.pending state with
    | (state, none) => (state, prepared)
    | (state, some write) =>
      let prepared := prepared ++ [write]
      let preparedBytes := saturatingAdd preparedBytes write.mutation.payload.length
      match checkedAdd nextIndex 1 with
      | none => (state, prepared)
      | some nextIndex =>
        if !write.reservation.pipelined || decide (persistenceBatchTargetBytes ≤ preparedBytes) then
          (state, prepared)
        else
          let room := maxWriteBatch - (state.pending.length + prepared.length)
          prepareLoop environment term slots nextIndex preparedBytes prepared
            (pullArrivals environment room state)

def spanMatches (bookmark : Bookmark) (batch : RecordBatch) : Bool :=
  batch.bookmark == bookmark && batch.firstIndex == bookmark.index

def mismatchedSpan : Error :=
  internal "applied mutation omitted its current-record span or returned a mismatched span"

variable (environment : WriterEnvironment σ) (state : WriterState σ)

def finishWrite (write : PreparedWrite)
    (outcome : CommandReservationOutcome) (result : Result Unit → Result WriteResponse) :
    WriterState σ :=
  let (next, completed) :=
    environment.completeCommandReservation state.environment write.reservation outcome
  { state with environment := next }.send write.reply (result completed)

def applyWrite (write : PreparedWrite) : WriterState σ × Option Error × Option RecordBatch :=
  match environment.applyMutation state.environment write.mutation with
  | (next, .error error) =>
    let state := { state with
      environment := next
      attempts := state.attempts ++ [{ write, batch := none }]
      failure := some error }
    (finishWrite environment state write .rejected fun _ => .error error, some error, none)
  | (next, .ok applied) =>
    let bookmark := write.mutation.bookmark
    let batch := applied.persistence.filter (spanMatches bookmark)
    let state := { state with
      environment := next
      attempts := state.attempts ++ [{ write, batch }] }
    match batch with
    | none =>
      let state := { state with failure := some mismatchedSpan }
      (finishWrite environment state write .applied fun _ => .error mismatchedSpan,
        some mismatchedSpan, none)
    | some batch =>
      let response : WriteResponse :=
        { bookmark
          requestId := write.requestId
          payload := applied.response
          duplicate := applied.duplicate }
      (finishWrite environment state write .applied fun completed => completed.map fun _ => response,
        none, some batch)

def applyPrepared (environment : WriterEnvironment σ) :
    List PreparedWrite → Option Error → List RecordBatch → WriterState σ →
    WriterState σ × List RecordBatch
  | [], _, batches, state => (state, batches)
  | write :: rest, fatal, batches, state =>
    match fatal <|> state.failure with
    | some error =>
      applyPrepared environment rest fatal batches
        (finishWrite environment state write .rejected fun _ => .error error)
    | none =>
      let (state, fatal, batch) := applyWrite environment state write
      applyPrepared environment rest fatal (batches ++ batch.toList) state

def writerTerm (term : UInt64) : UInt64 :=
  if term ≤ 1 then 1 else term

def processWriterBatch : WriterState σ × Result (List RecordBatch) := match state.failure with
  | some error => (state, .error error)
  | none =>
    match state.pending with
    | [] => (state, .ok [])
    | front :: _ =>
      match deadlinePassed environment state.environment front.deadline with
      | (next, true) =>
        ({ state with environment := next }.rejectFront
          (clientDeadlineExceeded "standalone write expired in the writer queue"), .ok [])
      | (next, false) =>
        match lockGate environment next front.deadline with
        | (next, false) =>
          ({ state with environment := next }.rejectFront
            (clientDeadlineExceeded "standalone write admission timed out"), .ok [])
        | (next, true) =>
          let state := { state with environment := next }
          let appliedAt := environment.appliedBookmark next
          match checkedAdd appliedAt.index 1 with
          | none =>
            (state.rejectFront (internal "standalone mutation index exhausted"), .ok [])
          | some nextIndex =>
            let (state, prepared) :=
              prepareLoop environment (writerTerm appliedAt.term) maxWriteBatch nextIndex 0 [] state
            let (state, batches) := applyPrepared environment prepared none [] state
            (state, .ok batches)

def publish (state : WriterState σ) (batches : List RecordBatch) : WriterState σ × Result Unit :=
  match batches.getLast? with
  | none => (state, .ok ())
  | some last =>
    if continuesPublication state.publishedIndex batches then
      ({ state with
        publishedIndex := last.bookmark.index, published := state.published ++ batches }, .ok ())
    else (state, .error (internal "noncontiguous current-record publication span"))

def rejectPending (error : Error) (state : WriterState σ) : WriterState σ := { state with
    pending := []
    replies := state.replies ++ state.pending.map fun write => (write.reply, .error error) }

def serveQueue : WriterState σ :=
  let state := pullArrivals environment (maxWriteBatch - state.pending.length) state
  match processWriterBatch environment state with
  | (state, .ok batches) =>
    match publish state batches with
    | (state, .ok _) => state
    | (state, .error error) => { state with failure := some error, stopped := true }
  | (state, .error error) => { rejectPending error state with stopped := true }

def receiveNext : WriterState σ × Option WriterMessage := match state.deferredControl with
  | some message => ({ state with deferredControl := none }, some message)
  | none =>
    let (next, message) := environment.blockingReceive state.environment
    ({ state with environment := next }, message)

def writerTurn : WriterState σ :=
  if state.stopped then state
  else if state.pending.isEmpty then
    match receiveNext environment state with
    | (state, some (.write write)) => serveQueue environment (state.enqueue write)
    | (state, some (.flush reply)) =>
      { state with barriers := state.barriers ++ [(some reply, false)] }
    | (state, some (.shutdown reply)) =>
      { state with barriers := state.barriers ++ [(some reply, true)], stopped := true }
    | (state, none) => { state with barriers := state.barriers ++ [(none, true)], stopped := true }
  else serveQueue environment state

def startWriter (environment : WriterEnvironment σ) (start : σ) : WriterState σ :=
  { environment := start
    pending := []
    deferredControl := none
    failure := none
    stopped := false
    publishedIndex := (environment.appliedBookmark start).index
    taken := []
    accepted := []
    attempts := []
    replies := []
    published := []
    barriers := [] }

def runWriter (environment : WriterEnvironment σ) (start : σ) : Nat → WriterState σ
  | 0 => startWriter environment start
  | turns + 1 => writerTurn environment (runWriter environment start turns)

end IronGraph
