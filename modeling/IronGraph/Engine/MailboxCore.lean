import IronGraph.Engine.DirtyRecords
import IronGraph.Storage.RecordStore

/-!
The persistence mailbox between the ordered writer and the persistence worker.

The writer publishes batches in three lock sections: it reads the published position, takes the
pending root out of the mailbox, merges outside the lock and puts the root back. Each action below
is one lock section or one step outside the lock, so a list of actions is an interleaving; an action
whose thread is elsewhere does nothing. -/

namespace IronGraph

open Outcome

def persistenceGroupInterval : Nat := 1000

structure Waiter where
  target : UInt64
  reply : Nat
deriving Repr, DecidableEq

structure PersistenceState where
  pending : Option DirtyRecords
  deadline : Option Nat
  published : UInt64
  durable : UInt64
  waiters : List Waiter
  force : Bool
  closing : Bool
  error : Option Error
  publicationParked : Bool

def PersistenceState.new (bookmark : Bookmark) : PersistenceState :=
  { pending := none
    deadline := none
    published := bookmark.index
    durable := bookmark.index
    waiters := []
    force := false
    closing := false
    error := none
    publicationParked := false }

/-- Where the single publishing thread is: outside, past the position check, or merging with the pending
root in its hands. -/
inductive Publisher where
  | idle
  | checked (batches : List RecordBatch)
  | merging (root : Option DirtyRecords) (batches : List RecordBatch)

inductive Worker where
  | scanning
  | waitingTimed
  | waitingUntimed
  | persisting (batch : RecordBatch)
  | persisted (bookmark : Bookmark)
  | failed (batch : RecordBatch) (error : Error)
  | replying (durable : UInt64) (waiting remaining : List Waiter)
  | rejecting (waiting : List Waiter) (error : Error) (closing : Bool)
  | exited

structure Reply where
  waiter : Waiter
  result : Result Unit

structure MailboxSystem where
  mailbox : PersistenceState
  publisher : Publisher
  worker : Worker
  retained : Option DirtyRecords
  store : RecordImage
  now : Nat
  woken : Bool
  history : List RecordBatch
  replies : List Reply

inductive MailboxAction where
  | publishStart (batches : List RecordBatch)
  | publishTake
  | publishFinish
  | barrier (reply : Option Nat) (closing : Bool)
  | workerScan
  | workerWake
  | workerPersist (failure : Option Error)
  | workerSettle
  | workerReply
  | tick (elapsed : Nat)

def continuesPublication (published : UInt64) : List RecordBatch → Bool
  | [] => true
  | batch :: rest =>
    checkedAdd published 1 == some batch.firstIndex &&
      decide (batch.firstIndex ≤ batch.bookmark.index) &&
      continuesPublication batch.bookmark.index rest

namespace MailboxSystem

variable (system : MailboxSystem)

def initial (image : RecordImage) : MailboxSystem :=
  { mailbox := .new image.bookmark
    publisher := .idle
    worker := .scanning
    retained := none
    store := image
    now := 0
    woken := false
    history := []
    replies := [] }

def notify (wake : Bool) : Bool := match system.worker with
  | .waitingTimed => system.woken || wake
  | .waitingUntimed => system.woken || wake
  | _ => system.woken

def publishStart (batches : List RecordBatch) : MailboxSystem := match system.publisher with
  | .idle =>
    if batches.isEmpty then system
    else if continuesPublication system.mailbox.published batches then
      { system with publisher := .checked batches }
    else system
  | _ => system

def publishTake : MailboxSystem := match system.publisher with
  | .checked batches =>
    { system with
      mailbox := { system.mailbox with pending := none }
      publisher := .merging system.mailbox.pending batches }
  | _ => system

def publishFinish : MailboxSystem := match system.publisher with
  | .merging root batches =>
    let state := system.mailbox
    let dirty := (root.getD default).absorbAll batches
    let wake := state.error.isNone && (state.deadline.isNone || state.publicationParked ||
      state.force || state.deadline.any fun deadline => decide (deadline ≤ system.now))
    let deadline :=
      if state.error.isNone then some (state.deadline.getD (system.now + persistenceGroupInterval))
      else state.deadline
    { system with
      mailbox := { state with pending := some dirty, published := dirty.bookmark.index, deadline }
      publisher := .idle
      woken := system.notify wake
      history := system.history ++ batches }
  | _ => system

def barrier (reply : Option Nat) (closing : Bool) : MailboxSystem :=
  let state := system.mailbox
  let target := state.published
  let answered := reply.filter fun _ => target ≤ state.durable
  let waiting := reply.filter fun _ => !decide (target ≤ state.durable)
  let wake := closing || decide (state.durable < target)
  { system with
    mailbox := { state with
      waiters := state.waiters ++ waiting.toList.map fun reply => { target, reply }
      closing := state.closing || closing
      force := state.force || wake }
    woken := system.notify wake
    replies := system.replies ++
      answered.toList.map fun reply => { waiter := { target, reply }, result := .ok () } }

def due : Bool := system.mailbox.force || system.mailbox.deadline.any fun deadline =>
    decide (deadline ≤ system.now)

def takenBatch (retained pending : Option DirtyRecords) : RecordBatch :=
  let dirty := retained.getD default
  (match pending with
    | some root => dirty.absorb root.intoBatch
    | none => dirty).intoBatch

def workerScan : MailboxSystem :=
  let state := system.mailbox
  match system.worker with
  | .scanning =>
    if state.closing && state.pending.isNone && system.retained.isNone then
      { system with worker := .exited }
    else if (state.error.isNone || state.force) && system.due &&
        (state.pending.isSome || system.retained.isSome) then
      { system with
        mailbox := { state with force := false, deadline := none, pending := none }
        worker := .persisting (takenBatch system.retained state.pending)
        retained := none }
    else if state.error.isNone && state.pending.isSome && state.deadline.isSome then
      { system with worker := .waitingTimed }
    else
      { system with
        mailbox := { state with publicationParked := state.error.isNone && state.pending.isNone }
        worker := .waitingUntimed }
  | _ => system

def workerWake : MailboxSystem := match system.worker with
  | .waitingTimed => { system with worker := .scanning, woken := false }
  | .waitingUntimed =>
    { system with
      mailbox := { system.mailbox with publicationParked := false }
      worker := .scanning
      woken := false }
  | _ => system

def workerPersist (failure : Option Error) : MailboxSystem := match system.worker with
  | .persisting batch =>
    match failure with
    | some error => { system with worker := .failed batch error }
    | none =>
      if continuesAll system.store.bookmark [batch] then
        { system with store := system.store.advance [batch], worker := .persisted batch.bookmark }
      else
        { system with
          worker := .failed batch (corrupt "record batch does not continue the durable prefix") }
  | _ => system

def workerSettle : MailboxSystem :=
  let state := system.mailbox
  match system.worker with
  | .persisted bookmark =>
    { system with
      mailbox := { state with durable := bookmark.index, error := none, waiters := [] }
      worker := .replying bookmark.index state.waiters [] }
  | .failed batch error =>
    { system with
      mailbox := { state with error := some error, force := false, deadline := none, waiters := [] }
      worker := .rejecting state.waiters error state.closing
      retained := some ((default : DirtyRecords).absorb batch) }
  | _ => system

def workerReply : MailboxSystem :=
  let state := system.mailbox
  match system.worker with
  | .replying durable (waiter :: waiting) remaining =>
    if waiter.target ≤ durable then
      { system with
        worker := .replying durable waiting remaining
        replies := system.replies ++ [{ waiter, result := .ok () }] }
    else { system with worker := .replying durable waiting (remaining ++ [waiter]) }
  | .replying _ [] remaining =>
    let waiters := state.waiters ++ remaining
    { system with
      mailbox := { state with waiters, force := state.force || state.closing || !waiters.isEmpty }
      worker := .scanning }
  | .rejecting (waiter :: waiting) error closing =>
    { system with
      worker := .rejecting waiting error closing
      replies := system.replies ++ [{ waiter, result := .error error }] }
  | .rejecting [] _ closing => { system with worker := if closing then .exited else .scanning }
  | _ => system

def step : MailboxAction → MailboxSystem
  | .publishStart batches => system.publishStart batches
  | .publishTake => system.publishTake
  | .publishFinish => system.publishFinish
  | .barrier reply closing => system.barrier reply closing
  | .workerScan => system.workerScan
  | .workerWake => system.workerWake
  | .workerPersist failure => system.workerPersist failure
  | .workerSettle => system.workerSettle
  | .workerReply => system.workerReply
  | .tick elapsed => { system with now := system.now + elapsed }

def run (image : RecordImage) (actions : List MailboxAction) : MailboxSystem :=
  actions.foldl step (initial image)

end MailboxSystem

end IronGraph
