import IronGraph.Broker.ProjectDrop

/-!
The broker as a state machine. An accepted command keeps the invariant and goes on from the state
before it, and it fails in three ways only; what a step keeps, a run keeps.
-/

namespace IronGraph.Broker

open Std Outcome OrderedMap BrokerStateMachine Except

def BrokerCommand.project : BrokerCommand → ProjectId
  | .createTopic project .. | .setTopicRetention project .. | .deleteTopic project ..
    | .clearTopic project ..
  | .createExchange project .. | .createQueue project .. | .setQueueRetention project ..
  | .registerConsumer project .. | .unregisterConsumer project .. | .releaseConnection project ..
  | .bindQueue project .. | .unbindQueue project .. | .purgeQueue project .. | .deleteQueue project ..
  | .deleteExchange project .. | .publishKafkaBatch project .. | .publishAmqp project ..
  | .publishAmqpBatch project .. | .publishAmqpUniformBatch project .. | .commitOffset project ..
  | .joinGroup project .. | .syncGroup project .. | .leaveGroup project .. | .heartbeatGroup project ..
  | .ack project .. | .nack project .. | .deliverQueue project .. | .renewDeliveryLease project ..
  | .releaseDeliveryLease project .. | .retain project .. => project

def BrokerCommand.hands (s : BrokerStateMachine) : BrokerCommand → StreamId → Uuid → Nat → Prop
  | .deliverQueue project queue _ _ owner consumer _ _ => fun id candidate candidateConsumer =>
    ∃ record, s.queues[(project, queue)]? = some record ∧
      handsTo record.stream owner consumer id candidate candidateConsumer
  | _ => nobody

def RepeatFree (s : BrokerStateMachine) : BrokerCommand → Prop
  | .deliverQueue project queue offset maximum _ _ _ _ =>
    FetchesDistinct s project queue offset maximum
  | _ => True

structure Stepped (runtime : Runtime) (orderly : Prop) (s : BrokerStateMachine)
    (command : BrokerCommand) (s' : BrokerStateMachine) : Prop where
  repeatFree : RepeatFree s command
  room : GenerationRoom s command
  settled : Settled runtime orderly s'
  advances : Advances command.project (command.hands s) s s'

def Refused (s : BrokerStateMachine) (command : BrokerCommand) (error : Error) : Prop :=
  Overflow error ∨ (error = repeatedMessage ∧ ¬ RepeatFree s command) ∨
    (error = generationExhausted ∧ ¬ GenerationRoom s command)

variable {runtime : Runtime} {cmd : BrokerCommand}

section Dispatch

variable {orderly : Prop} {s : BrokerStateMachine}

theorem stepped_of_quiet {β : Type} {result : Except Error (BrokerStateMachine × β)}
    (repeatFree : RepeatFree s cmd) (room : GenerationRoom s cmd)
    (kept : Meets result (Keeps runtime orderly cmd.project s)
      Overflow) : Meets result (fun after => Stepped runtime orderly s cmd after.1) (Refused s cmd) :=
  kept.mono (fun _ held => ⟨repeatFree, room, held.1, held.2.hand _⟩) fun _ => .inl

theorem stepped_of_grouped {β : Type} {result : Except Error (BrokerStateMachine × β)}
    (repeatFree : RepeatFree s cmd)
    (kept : Meets result (fun after => GenerationRoom s cmd ∧ Keeps runtime orderly cmd.project s after)
      (fun error => error = generationExhausted ∧ ¬ GenerationRoom s cmd)) :
    Meets result (fun after => Stepped runtime orderly s cmd after.1) (Refused s cmd) :=
  kept.mono (fun _ held => ⟨repeatFree, held.1, held.2.1, held.2.2.hand _⟩) fun _ failed =>
    .inr (.inr failed)

theorem settle_stepped {project : ProjectId} {queue : String} {owner : Uuid} {consumer tag : Nat}
    {multiple : Bool} (settled : Settled runtime orderly s) (ack requeue : Bool)
    (valid : s.validateSettlement project queue owner consumer tag multiple = .ok ())
    (routes : ack = false → requeue = false →
      s.validateDeadLetterAppends project queue owner consumer tag multiple = .ok ())
        (reply : BrokerReply) :
    Meets (do
        let s ← s.settle project queue owner consumer tag multiple ack requeue
        return (s, reply)) (Keeps runtime orderly project s) Overflow := by
  obtain ⟨_, _, settles⟩ := settle_meets settled valid routes
  apply Meets.bind settles
  intro s' held
  exact ⟨held.1, held.2.1⟩

theorem dispatch_meets (lawful : Lawful runtime) (settled : Settled runtime orderly s)
    (tidy : orderly → Tidy s cmd) (valid : s.validateCommand cmd = .ok ()) :
    Meets (dispatch runtime s cmd)
      (fun after => Stepped runtime orderly s cmd after.1) (Refused s cmd) := by
  cases cmd with
  | createTopic => exact stepped_of_quiet trivial trivial (createTopic_meets settled valid)
  | setTopicRetention => exact stepped_of_quiet trivial trivial (setTopicRetention_meets settled valid)
  | deleteTopic => exact stepped_of_quiet trivial trivial (deleteTopic_meets settled valid)
  | clearTopic => exact stepped_of_quiet trivial trivial (clearTopic_meets settled valid)
  | createExchange => exact stepped_of_quiet trivial trivial (createExchange_meets settled valid)
  | createQueue => exact stepped_of_quiet trivial trivial (createQueue_meets settled valid)
  | setQueueRetention => exact stepped_of_quiet trivial trivial (setQueueRetention_meets settled valid)
  | registerConsumer => exact stepped_of_quiet trivial trivial (registerConsumer_meets settled valid)
  | unregisterConsumer =>
    exact stepped_of_quiet trivial trivial (unregisterConsumer_meets settled _ _ _)
  | releaseConnection => exact stepped_of_quiet trivial trivial (releaseConnection_meets settled _ _)
  | bindQueue => exact stepped_of_quiet trivial trivial (bindQueue_meets settled valid)
  | unbindQueue => exact stepped_of_quiet trivial trivial (unbindQueue_meets settled valid)
  | purgeQueue => exact stepped_of_quiet trivial trivial (purgeQueue_meets settled valid)
  | deleteQueue => exact stepped_of_quiet trivial trivial (deleteQueue_meets settled valid)
  | deleteExchange => exact stepped_of_quiet trivial trivial (deleteExchange_meets settled valid)
  | publishKafkaBatch =>
    refine stepped_of_quiet trivial trivial
      ((publishKafkaBatch_meets lawful settled valid).mono ?_ fun _ => id)
    rintro after ⟨_, _, _, kept, published⟩
    exact ⟨kept, published.advances⟩
  | publishAmqp =>
    refine stepped_of_quiet trivial trivial
      ((publishAmqp_meets lawful settled valid).mono ?_ fun _ => id)
    rintro after ⟨_, _, kept, published⟩
    refine ⟨kept, ?_⟩
    split at published
    · rw [published]
      exact .refl _ s
    · exact published.2.advances
  | publishAmqpBatch =>
    refine stepped_of_quiet trivial trivial
      ((publishAmqpBatch_meets lawful settled valid).mono ?_ fun _ => id)
    rintro after ⟨_, _, _, kept, _, published⟩
    exact ⟨kept, published.advances⟩
  | publishAmqpUniformBatch =>
    refine stepped_of_quiet trivial trivial
      ((publishAmqpUniformBatch_meets lawful settled valid).mono ?_ fun _ => id)
    rintro after ⟨_, _, kept, _, published⟩
    refine ⟨kept, ?_⟩
    split at published
    · rw [published]
      exact .refl _ s
    · exact published.advances
  | commitOffset => exact stepped_of_quiet trivial trivial (commitOffset_meets settled valid)
  | joinGroup => exact stepped_of_grouped trivial (joinGroup_meets settled tidy valid)
  | syncGroup => exact stepped_of_quiet trivial trivial (syncGroup_meets settled valid)
  | leaveGroup => exact stepped_of_grouped trivial (leaveGroup_meets settled tidy valid)
  | heartbeatGroup => exact stepped_of_grouped trivial (heartbeatGroup_meets settled valid)
  | ack project queue owner consumer tag multiple =>
    exact stepped_of_quiet trivial trivial (settle_stepped settled true false valid nofun _)
  | nack project queue owner consumer tag multiple requeue =>
    obtain ⟨_, reaches, routes⟩ := bind_eq_ok.mp valid
    refine stepped_of_quiet trivial trivial (settle_stepped settled false requeue reaches ?_ _)
    rintro - rfl
    exact routes
  | deliverQueue project queue offset maximum owner consumer auto now =>
    obtain ⟨record, stream, declared, fetches⟩ := fetchQueue_meets settled valid
    refine Meets.bind (fetches.mono (fun _ held => held) ?_) ?_
    · rintro error (overflow | repeated)
      · exact .inl overflow
      · exact .inr (.inl repeated)
    · rintro ⟨s', deliveries⟩ ⟨settled', advances, distinct, _⟩
      exact ⟨distinct, trivial, settled', advances.mono fun handed => ⟨record, declared, handed⟩⟩
  | renewDeliveryLease project owner now =>
    refine stepped_of_quiet trivial trivial (Meets.bind
      (renewDeliveryLease_meets settled project owner _) ?_)
    exact fun _ held => held
  | releaseDeliveryLease project owner =>
    have released := releaseDeliveryLease_settled settled project owner
    exact ⟨trivial, trivial, released.1, released.2.1.hand _⟩
  | retain project now =>
    exact stepped_of_grouped trivial ((retainProject_meets settled project now).imp fun _ held =>
      ⟨held.1, held.2.1⟩)

end Dispatch

inductive Action where
  | command (issued : BrokerCommand)
  | drop (project : ProjectId)

namespace Action

def project : Action → ProjectId
  | .command issued => issued.project
  | .drop project => project

def hands (s : BrokerStateMachine) : Action → StreamId → Uuid → Nat → Prop
  | .command issued => issued.hands s
  | .drop _ => nobody

def Tidy (s : BrokerStateMachine) : Action → Prop
  | .command issued => Broker.Tidy s issued
  | .drop _ => True

def step (runtime : Runtime) (s : BrokerStateMachine) : Action → Result BrokerStateMachine
  | .command issued => do
    let (s, _) ← apply runtime s issued
    return s
  | .drop project => s.dropProject project

end Action

def run (runtime : Runtime) (s : BrokerStateMachine) (actions : List Action) :
    Result BrokerStateMachine :=
  actions.foldlM (Action.step runtime) s

def Along {ι : Type} (runtime : Runtime) (action : ι → Action)
    (permitted : BrokerStateMachine → ι → Prop) : BrokerStateMachine → List ι → Prop
  | _, [] => True
  | s, issued :: rest => permitted s issued ∧
    ∀ s', (action issued).step runtime s = .ok s' → Along runtime action permitted s' rest

def TidyRun (runtime : Runtime) : BrokerStateMachine → List Action → Prop :=
  Along runtime id fun s action => action.Tidy s

section Run

variable {orderly : Prop} {s s' : BrokerStateMachine}

theorem apply_eq_ok {after : BrokerStateMachine × BrokerReply} :
    apply runtime s cmd = .ok after ↔
      s.validateCommand cmd = .ok () ∧ dispatch runtime s cmd = .ok after := by
  constructor
  · intro applied
    obtain ⟨_, valid, dispatched⟩ := bind_eq_ok.mp applied
    exact ⟨valid, dispatched⟩
  · rintro ⟨valid, dispatched⟩
    exact bind_eq_ok.mpr ⟨(), valid, dispatched⟩

theorem apply_stepped {reply : BrokerReply} (lawful : Lawful runtime)
    (settled : Settled runtime orderly s) (tidy : orderly → Tidy s cmd)
    (applied : apply runtime s cmd = .ok (s', reply)) :
    Stepped runtime orderly s cmd s' := by
  obtain ⟨valid, dispatched⟩ := apply_eq_ok.mp applied
  exact (dispatch_meets lawful settled tidy valid).ok_post dispatched

theorem dropProject_removed {project : ProjectId} (dropped : s.dropProject project = .ok s') :
    s.removeProject project = .ok s' := by
  obtain ⟨bare, removed, checked⟩ := bind_eq_ok.mp dropped
  obtain ⟨_, _, same⟩ := bind_eq_ok.mp checked
  rw [removed, ok.inj same]

theorem removeProject_advances {project : ProjectId} (settled : Settled runtime orderly s)
    (removed : s.removeProject project = .ok s') : Settled runtime orderly s' ∧
    Advances project nobody s s' := by
  have meets : Meets (s.removeProject project) _ fun _ => True := removeProject_meets settled project
  exact meets.ok_post removed

theorem step_advances (lawful : Lawful runtime) (settled : Settled runtime orderly s) {action : Action}
    (tidy : orderly → action.Tidy s) (stepped : action.step runtime s = .ok s') :
    Settled runtime orderly s' ∧ Advances action.project (action.hands s) s s' := by
  cases action with
  | command command =>
    obtain ⟨⟨after, reply⟩, applied, same⟩ := bind_eq_ok.mp stepped
    obtain rfl := ok.inj same
    have done := apply_stepped lawful settled tidy applied
    exact ⟨done.settled, done.advances⟩
  | drop project => exact removeProject_advances settled (dropProject_removed stepped)

theorem run_cons {action : Action} {rest : List Action} : run runtime s (action :: rest) = .ok s' ↔
      ∃ middle, action.step runtime s = .ok middle ∧ run runtime middle rest = .ok s' :=
  bind_eq_ok

theorem run_settled (lawful : Lawful runtime) {actions : List Action}
    (settled : Settled runtime orderly s)
    (tidy : orderly → TidyRun runtime s actions) (ran : run runtime s actions = .ok s') :
    Settled runtime orderly s' := by
  induction actions generalizing s with
  | nil => exact ok.inj ran ▸ settled
  | cons action rest ih =>
    obtain ⟨middle, stepped, later⟩ := run_cons.mp ran
    have after := step_advances lawful settled (fun held => (tidy held).1) stepped
    exact ih after.1 (fun held => (tidy held).2 middle stepped) later

theorem run_evolves (lawful : Lawful runtime) {actions : List Action}
    (settled : Settled runtime False s)
    (ran : run runtime s actions = .ok s') : Evolves (fun _ _ _ => True) s s' := by
  induction actions generalizing s with
  | nil => exact ok.inj ran ▸ .of_same rfl rfl rfl
  | cons action rest ih =>
    obtain ⟨middle, stepped, later⟩ := run_cons.mp ran
    obtain ⟨after, advances⟩ := step_advances lawful settled False.elim stepped
    exact (advances.mono fun _ => trivial).evolves.trans (ih after later)

def reached (runtime : Runtime) (s : BrokerStateMachine) (actions : List Action) : BrokerStateMachine :=
  (run runtime s actions).toOption.getD s

theorem run_reached (runtime : Runtime) (s : BrokerStateMachine) (actions : List Action)
    (runs : (run runtime s actions).isOk = true) :
    run runtime s actions = .ok (reached runtime s actions) := by
  unfold reached
  cases outcome : run runtime s actions with
  | error error =>
    rw [outcome] at runs
    cases runs
  | ok final => rfl

def Reachable (runtime : Runtime) (s : BrokerStateMachine) : Prop :=
  ∃ actions, run runtime empty actions = .ok s

theorem Reachable.settled (lawful : Lawful runtime) (reachable : Reachable runtime s) :
    Settled runtime False s := by
  obtain ⟨actions, ran⟩ := reachable
  exact run_settled lawful empty_settled False.elim ran

end Run

end IronGraph.Broker
