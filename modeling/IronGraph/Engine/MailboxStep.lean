import IronGraph.Engine.MailboxCore

/-!
What one action of the mailbox system can do: `MailboxStep` lists the transitions with their guards
and results, and the invariants of the system are proved by cases on it.
-/

namespace IronGraph

open Outcome MailboxSystem Option Bool

def armedDeadline (system : MailboxSystem) : Option Nat :=
  if system.mailbox.error.isNone then
    some (system.mailbox.deadline.getD (system.now + persistenceGroupInterval))
  else system.mailbox.deadline

inductive MailboxStep (system : MailboxSystem) : MailboxAction → MailboxSystem → Prop where
  | stay (action : MailboxAction) : MailboxStep system action system
  | published (batches : List RecordBatch) (idle : system.publisher = .idle) (nonempty : batches ≠ [])
      (continued : continuesPublication system.mailbox.published batches = true) :
      MailboxStep system (.publishStart batches) { system with publisher := .checked batches }
  | rootTaken (batches : List RecordBatch) (checked : system.publisher = .checked batches) :
      MailboxStep system .publishTake { system with
        mailbox := { system.mailbox with pending := none }
        publisher := .merging system.mailbox.pending batches }
  | rootReturned (root : Option DirtyRecords) (batches : List RecordBatch) (woken : Bool)
      (merging : system.publisher = .merging root batches) :
      MailboxStep system .publishFinish { system with
        mailbox := { system.mailbox with
          pending := some ((root.getD default).absorbAll batches)
          published := ((root.getD default).absorbAll batches).bookmark.index
          deadline := armedDeadline system }
        publisher := .idle
        woken
        history := system.history ++ batches }
  | barrier (asked : Option Nat) (waiters : List Waiter) (closing wake woken : Bool)
      (answered : List Reply)
      (honest : ∀ reply ∈ answered, reply.waiter.target ≤ system.mailbox.durable) :
      MailboxStep system (.barrier asked closing) { system with
        mailbox := { system.mailbox with
          waiters
          closing := system.mailbox.closing || closing
          force := system.mailbox.force || wake }
        woken
        replies := system.replies ++ answered }
  | exited (scanning : system.worker = .scanning) (closing : system.mailbox.closing = true) :
      MailboxStep system .workerScan { system with worker := .exited }
  | taken (scanning : system.worker = .scanning)
      (work : system.mailbox.pending.isSome = true ∨ system.retained.isSome = true) :
      MailboxStep system .workerScan { system with
        mailbox := { system.mailbox with force := false, deadline := none, pending := none }
        worker := .persisting (takenBatch system.retained system.mailbox.pending)
        retained := none }
  | parkedTimed (scanning : system.worker = .scanning) :
      MailboxStep system .workerScan { system with worker := .waitingTimed }
  | parkedUntimed (scanning : system.worker = .scanning) (parked : Bool) :
      MailboxStep system .workerScan { system with
        mailbox := { system.mailbox with publicationParked := parked }
        worker := .waitingUntimed }
  | woke (parked : Bool) (waiting : system.worker = .waitingTimed ∨ system.worker = .waitingUntimed) :
      MailboxStep system .workerWake { system with
        mailbox := { system.mailbox with publicationParked := parked }
        worker := .scanning
        woken := false }
  | persistFailed (failure : Option Error) (batch : RecordBatch) (error : Error)
      (persisting : system.worker = .persisting batch) :
      MailboxStep system (.workerPersist failure) { system with worker := .failed batch error }
  | persisted (batch : RecordBatch) (persisting : system.worker = .persisting batch)
      (continued : continuesAll system.store.bookmark [batch] = true) :
      MailboxStep system (.workerPersist none) { system with
        store := system.store.advance [batch]
        worker := .persisted batch.bookmark }
  | settled (bookmark : Bookmark) (persisted : system.worker = .persisted bookmark) :
      MailboxStep system .workerSettle { system with
        mailbox := { system.mailbox with durable := bookmark.index, error := none, waiters := [] }
        worker := .replying bookmark.index system.mailbox.waiters [] }
  | settledError (batch : RecordBatch) (error : Error) (failed : system.worker = .failed batch error) :
      MailboxStep system .workerSettle { system with
        mailbox := { system.mailbox with
          error := some error
          force := false
          deadline := none
          waiters := [] }
        worker := .rejecting system.mailbox.waiters error system.mailbox.closing
        retained := some ((default : DirtyRecords).absorb batch) }
  | answered (durable : UInt64) (waiter : Waiter) (waiting remaining : List Waiter)
      (replying : system.worker = .replying durable (waiter :: waiting) remaining)
      (reached : waiter.target ≤ durable) :
      MailboxStep system .workerReply { system with
        worker := .replying durable waiting remaining
        replies := system.replies ++ [{ waiter, result := .ok () }] }
  | kept (durable : UInt64) (waiter : Waiter) (waiting remaining : List Waiter)
      (replying : system.worker = .replying durable (waiter :: waiting) remaining) :
      MailboxStep system .workerReply { system with
        worker := .replying durable waiting (remaining ++ [waiter]) }
  | resumed (durable : UInt64) (remaining : List Waiter)
      (replying : system.worker = .replying durable [] remaining) :
      MailboxStep system .workerReply { system with
        mailbox := { system.mailbox with
          waiters := system.mailbox.waiters ++ remaining
          force := system.mailbox.force || system.mailbox.closing ||
            !(system.mailbox.waiters ++ remaining).isEmpty }
        worker := .scanning }
  | rejected (waiter : Waiter) (waiting : List Waiter) (error : Error) (closing : Bool)
      (rejecting : system.worker = .rejecting (waiter :: waiting) error closing) :
      MailboxStep system .workerReply { system with
        worker := .rejecting waiting error closing
        replies := system.replies ++ [{ waiter, result := .error error }] }
  | rejectedAll (error : Error) (closing : Bool) (worker : Worker)
      (rejecting : system.worker = .rejecting [] error closing)
      (next : worker = .exited ∨ worker = .scanning) :
      MailboxStep system .workerReply { system with worker }
  | ticked (elapsed : Nat) : MailboxStep system (.tick elapsed)
      { system with now := system.now + elapsed }

theorem step_transition (system : MailboxSystem) (action : MailboxAction) :
    MailboxStep system action (system.step action) := by
  cases action with
  | publishStart batches =>
    simp only [step, publishStart]
    split
    next idle =>
      split
      · exact .stay _
      · split
        · rename_i nonempty continued
          exact .published batches idle (by simpa using nonempty) continued
        · exact .stay _
    · exact .stay _
  | publishTake =>
    simp only [step, publishTake]
    split
    next batches checked => exact .rootTaken batches checked
    · exact .stay _
  | publishFinish =>
    simp only [step, publishFinish]
    split
    next root batches merging => exact .rootReturned root batches _ merging
    · exact .stay _
  | barrier reply closing =>
    apply MailboxStep.barrier
    intro answer mem
    simp only [List.mem_map, mem_toList, filter_eq_some_iff, decide_eq_true_eq] at mem
    obtain ⟨_, ⟨_, reached⟩, rfl⟩ := mem
    exact reached
  | workerScan =>
    simp only [step, workerScan]
    split
    next scanning =>
      split
      next closed =>
        simp only [and_eq_true] at closed
        exact .exited scanning closed.1.1
      · split
        next due =>
          simp only [and_eq_true, or_eq_true] at due
          exact .taken scanning due.2
        · split
          · exact .parkedTimed scanning
          · exact .parkedUntimed scanning _
    · exact .stay _
  | workerWake =>
    simp only [step, workerWake]
    split
    next waiting => exact .woke system.mailbox.publicationParked (.inl waiting)
    next waiting => exact .woke false (.inr waiting)
    · exact .stay _
  | workerPersist failure =>
    simp only [step, workerPersist]
    split
    next batch persisting =>
      split
      next error => exact .persistFailed _ batch error persisting
      · split
        next continued => exact .persisted batch persisting continued
        · exact .persistFailed _ batch _ persisting
    · exact .stay _
  | workerSettle =>
    simp only [step, workerSettle]
    split
    next bookmark persisted => exact .settled bookmark persisted
    next batch error failed => exact .settledError batch error failed
    · exact .stay _
  | workerReply =>
    simp only [step, workerReply]
    split
    next durable waiter waiting remaining replying =>
      split
      next reached => exact .answered durable waiter waiting remaining replying reached
      · exact .kept durable waiter waiting remaining replying
    next durable remaining replying => exact .resumed durable remaining replying
    next waiter waiting error closing rejecting =>
      exact .rejected waiter waiting error closing rejecting
    next error closing rejecting =>
      apply MailboxStep.rejectedAll error closing _ rejecting
      cases closing <;> simp
    · exact .stay _
  | tick elapsed => exact .ticked _

end IronGraph
