import IronGraph.Engine.MailboxStep

/-!
When accepted changes are left in memory with nothing that will flush them: a publication that
completes while the worker retries after an error arms no deadline, and the retry's success arms
nothing either.
-/

namespace IronGraph

open Bool

def Worker.midPersist : Worker → Bool
  | .persisting _ => true
  | .persisted _ => true
  | .failed _ _ => true
  | _ => false

def Publisher.holdsRoot : Publisher → Bool
  | .merging _ _ => true
  | _ => false

namespace MailboxSystem

variable (system : MailboxSystem)

def flushArranged : Bool := system.mailbox.deadline.isSome || system.mailbox.force

def stranded : Bool := !system.publisher.holdsRoot && !system.worker.midPersist &&
    !system.mailbox.closing &&
    system.mailbox.error.isNone && system.mailbox.pending.isSome && !system.flushArranged

/-- The publication completes outside the retry of a recorded error. -/
def publishesOutsideRetry : MailboxAction → Bool
  | .publishFinish => !(system.mailbox.error.isSome && system.worker.midPersist)
  | _ => true

def runsOutsideRetry (system : MailboxSystem) : List MailboxAction → Bool
  | [] => true
  | action :: rest => system.publishesOutsideRetry action && (system.step action).runsOutsideRetry rest

end MailboxSystem

structure Armed (system : MailboxSystem) : Prop where
  flush : system.mailbox.error = none → system.mailbox.pending.isSome = true →
    system.flushArranged = true
  retry : system.mailbox.error.isSome = true → system.worker.midPersist = true →
    system.mailbox.pending = none

variable {system : MailboxSystem}

theorem armedDeadline_isSome (error : system.mailbox.error = none) :
    (armedDeadline system).isSome = true := by
  simp [armedDeadline, error]

theorem armed_step {action : MailboxAction} {next : MailboxSystem} (armed : Armed system)
    (outside : system.publishesOutsideRetry action = true) (step : MailboxStep system action next) :
    Armed next := by
  obtain ⟨flush, retry⟩ := armed
  cases step with
  | stay | ticked | published => exact ⟨flush, retry⟩
  | rootTaken | taken => exact ⟨by simp, by simp⟩
  | rootReturned root batches woken merging =>
    constructor
    · intro error _
      have deadline : (armedDeadline system).isSome = true := armedDeadline_isSome error
      simp [MailboxSystem.flushArranged, deadline]
    · intro error busy
      simp only [MailboxSystem.publishesOutsideRetry, not_eq_true', and_eq_false_iff] at outside
      rcases outside with cleared | free
      · rw [cleared] at error
        cases error
      · rw [free] at busy
        cases busy
  | barrier asked waiters closing wake woken answered honest =>
    refine ⟨?_, retry⟩
    intro error has
    have arranged := flush error has
    simp only [MailboxSystem.flushArranged, or_eq_true] at arranged ⊢
    tauto
  | exited | parkedTimed | parkedUntimed | woke | answered | kept | rejected =>
    exact ⟨flush, by simp [Worker.midPersist]⟩
  | persistFailed _ _ _ persisting | persisted _ persisting =>
    exact ⟨flush, fun recorded _ => retry recorded (by simp [persisting, Worker.midPersist])⟩
  | settled bookmark persisted =>
    refine ⟨?_, by simp⟩
    intro _ has
    cases recorded : system.mailbox.error with
    | none => exact flush recorded has
    | some error =>
      have empty := retry (by simp [recorded]) (by simp [persisted, Worker.midPersist])
      simp [empty] at has
  | settledError batch error failed => exact ⟨by simp, by simp [Worker.midPersist]⟩
  | resumed durable remaining replying =>
    refine ⟨?_, by simp [Worker.midPersist]⟩
    intro error has
    have arranged := flush error has
    simp only [MailboxSystem.flushArranged, or_eq_true] at arranged ⊢
    tauto
  | rejectedAll error closing worker rejecting next =>
    refine ⟨flush, ?_⟩
    rcases next with rfl | rfl <;> simp [Worker.midPersist]

theorem runsOutsideRetry_append (system : MailboxSystem) (first second : List MailboxAction) :
    system.runsOutsideRetry (first ++ second) =
      (system.runsOutsideRetry first &&
        (first.foldl MailboxSystem.step system).runsOutsideRetry second) := by
  induction first generalizing system with
  | nil => simp [MailboxSystem.runsOutsideRetry]
  | cons action rest ih =>
    simp [MailboxSystem.runsOutsideRetry, ih, Bool.and_assoc]

theorem armed_run (armed : Armed system) (actions : List MailboxAction)
    (outside : system.runsOutsideRetry actions = true) :
    Armed (actions.foldl MailboxSystem.step system) := by
  induction actions generalizing system with
  | nil => exact armed
  | cons action rest ih =>
    rw [MailboxSystem.runsOutsideRetry, and_eq_true] at outside
    exact ih (armed_step armed outside.1 (step_transition system action)) outside.2

/-- Every state of a run in which no publication completes during the retry of a recorded error has its
pending changes under a deadline or a forced flush. -/
theorem never_stranded_outside_retry (image : RecordImage) (actions : List MailboxAction)
    (outside : (MailboxSystem.initial image).runsOutsideRetry actions = true) (count : Nat) :
    (MailboxSystem.run image (actions.take count)).stranded = false := by
  have early : (MailboxSystem.initial image).runsOutsideRetry (actions.take count) = true := by
    rw [← List.take_append_drop count actions, runsOutsideRetry_append, and_eq_true] at outside
    exact outside.1
  have armed := armed_run ⟨by simp [MailboxSystem.initial, PersistenceState.new],
    by simp [MailboxSystem.initial, PersistenceState.new]⟩ (actions.take count) early
  change Armed (MailboxSystem.run image (actions.take count)) at armed
  generalize MailboxSystem.run image (actions.take count) = system at armed ⊢
  rw [eq_false_iff]
  intro stranded
  simp only [MailboxSystem.stranded, and_eq_true, Option.isNone_iff_eq_none, not_eq_true'] at stranded
  obtain ⟨⟨⟨_, error⟩, present⟩, unarranged⟩ := stranded
  rw [armed.flush error present] at unarranged
  cases unarranged

def emptyBatch (index : UInt64) : RecordBatch :=
  { firstIndex := index, bookmark := { term := 1, index }, operations := [] }

def diskError : Error := Error.new .io "record storage: disk full"

def flushAfterFailure : List MailboxAction :=
  [.publishStart [emptyBatch 1], .publishTake, .publishFinish, .tick 1000, .workerScan,
    .workerPersist (some diskError), .workerSettle, .workerReply, .barrier (some 0) false, .workerScan]

def publishDuringRetry : List MailboxAction :=
  [.publishStart [emptyBatch 2], .publishTake, .publishFinish, .workerPersist none,
    .workerSettle, .workerReply, .workerReply]

theorem never_stranded_outside_retry_flush :
    (MailboxSystem.initial .empty).runsOutsideRetry flushAfterFailure = true ∧
      (MailboxSystem.run .empty (flushAfterFailure.take 3)).stranded = false :=
  ⟨by decide +kernel, never_stranded_outside_retry .empty flushAfterFailure (by decide +kernel) 3⟩

theorem publishDuringRetry_stranded :
    (MailboxSystem.run .empty (flushAfterFailure ++ publishDuringRetry)).stranded = true := by
  decide +kernel

end IronGraph
