import IronGraph.Broker.Fencing

/-!
Exclusive queues. A foreign connection can neither redeclare the queue nor register a consumer on
it. A binding, a deletion and a delivery do not look at the owner of the queue, so that what is used
by the owner alone, and the records with it, is so only as long as nobody else issues one of them.
-/

namespace IronGraph.Broker

open Std Outcome OrderedMap BrokerStateMachine Option

/-- The queue that a command uses, whether its validation looks at the owner of the queue, and on
whose behalf it is issued: that of the owner it names, or else of the connection. -/
def BrokerCommand.use (connection : Uuid) : BrokerCommand → Option (Name × Bool × Uuid)
  | .createQueue project name _ _ _ _ _ _ exclusiveOwner _ =>
    some ((project, name), true, exclusiveOwner.getD connection)
  | .registerConsumer project queue owner _ => some ((project, queue), true, owner)
  | .bindQueue project _ queue _ => some ((project, queue), false, connection)
  | .deleteQueue project name _ _ => some ((project, name), false, connection)
  | .deliverQueue project queue _ _ owner _ _ _ => some ((project, queue), false, owner)
  | _ => none

/-- A command that a connection issues uses an exclusive queue on behalf of its owner only. -/
def OwnUse (guarded : Bool) (s : BrokerStateMachine) (issued : Uuid × Action) : Prop :=
  ∀ command name issuer queue holder, issued.2 = .command command →
    command.use issued.1 = some (name, guarded, issuer) → s.queues[name]? = some queue →
      queue.exclusiveOwner = some holder → issuer = holder

def ExclusivelyHeld (s : BrokerStateMachine) : Prop :=
  ∀ name queue holder owner consumer offset, s.queues[name]? = some queue →
    queue.exclusiveOwner = some holder → Holding s name owner consumer offset → owner = holder

section Exclusive

variable {orderly : Prop} {runtime : Runtime} {s s' : BrokerStateMachine} {name : Name}
  {queue : Queue} {owner holder foreigner : Uuid} {consumer offset : Nat}
  {hands : StreamId → Uuid → Nat → Prop}

theorem Evolves.exclusive (settled : Settled runtime orderly s) (evolves : Evolves hands s s')
    (known : ∀ {id owner consumer}, hands id owner consumer → ∃ stream, s.streams[id]? = some stream)
    (held : Holding s' name owner consumer offset) (declared : s'.queues[name]? = some queue) :
    ∃ before, s.queues[name]? = some before ∧ before.exclusiveOwner = queue.exclusiveOwner := by
  obtain ⟨ref, tag, ⟨again, stream, redeclared, has, mem, _⟩, delivery⟩ := held
  rw [declared, some.injEq] at redeclared
  subst redeclared
  have standing : ∃ prior, s.streams[queue.stream]? = some prior := by
    obtain ⟨prior, origin, follows⟩ := evolves.streams has
    rcases follows.held mem delivery with handed | ⟨_, inside, _⟩
    · exact known handed
    rcases origin with found | ⟨_, rfl⟩
    · exact ⟨prior, found⟩
    · exact absurd inside List.not_mem_nil
  obtain ⟨prior, found⟩ := standing
  obtain ⟨before, declaredBefore, _, same⟩ := evolves.queue_before settled declared found
  exact ⟨before, declaredBefore, same⟩

theorem hands_known (settled : Settled runtime orderly s) {action : Action} {id : StreamId}
    (handed : action.hands s id owner consumer) : ∃ stream, s.streams[id]? = some stream := by
  cases action with
  | drop project => exact handed.elim
  | command command =>
    cases command with
    | deliverQueue project queue =>
      obtain ⟨record, declared, rfl, _⟩ := handed
      have located : slotStream s.topics s.queues (.queue (project, queue)) = some record.stream := by
        simp [slotStream, declared]
      exact settled.owned.declared located
    | _ => exact handed.elim

theorem guarded_use {command : BrokerCommand} {connection issuer : Uuid}
    (accepted : s.validateCommand command = .ok ())
    (uses : command.use connection = some (name, true, issuer))
    (declared : s.queues[name]? = some queue) (owned : queue.exclusiveOwner = some holder) :
    issuer = holder := by
  cases command with
  | createQueue project queue kind durable passive _ _ retention exclusiveOwner =>
    obtain ⟨rfl, -, rfl⟩ := uses
    obtain ⟨_, _, accepted⟩ := bind_eq_ok.mp accepted
    obtain ⟨_, _, accepted⟩ := bind_eq_ok.mp accepted
    obtain ⟨_, named, _⟩ := bind_eq_ok.mp accepted
    unfold validateQueueName at named
    simp only [declared] at named
    obtain ⟨_, _, unclaimed⟩ := bind_eq_ok.mp named
    rw [require_eq_ok, owned] at unclaimed
    rw [← (by simpa using unclaimed : some holder = exclusiveOwner), getD_some]
  | registerConsumer =>
    obtain ⟨rfl, -, rfl⟩ := uses
    obtain ⟨again, redeclared, permitted⟩ := bind_eq_ok.mp accepted
    rw [orElse_eq_ok, declared, some.injEq] at redeclared
    subst redeclared
    rw [require_eq_ok, owned, all_some, beq_iff_eq] at permitted
    exact permitted.symm
  | _ => cases uses

theorem step_guarded {issued : Uuid × Action} (stepped : issued.2.step runtime s = .ok s') :
    OwnUse true s issued := by
  intro command name issuer queue holder same uses declared owned
  rw [same] at stepped
  obtain ⟨_, applied, _⟩ := bind_eq_ok.mp stepped
  exact guarded_use (apply_eq_ok.mp applied).1 uses declared owned

theorem step_exclusive (lawful : Lawful runtime) (settled : Settled runtime False s)
    {issued : Uuid × Action}
    (own : OwnUse false s issued) (stepped : issued.2.step runtime s = .ok s')
    (exclusive : ExclusivelyHeld s) : ExclusivelyHeld s' := by
  intro name queue holder owner consumer offset declared owned held
  have evolves := (step_advances lawful settled False.elim stepped).2.evolves
  obtain ⟨before, declaredBefore, same⟩ := evolves.exclusive settled (hands_known settled) held declared
  rcases step_holding lawful settled stepped held with heldBefore | ⟨cmd, issues, ⟨_, _, _⟩⟩
  · exact exclusive name before holder owner consumer offset declaredBefore
      (same.trans owned) heldBefore
  · exact own _ name owner before holder issues rfl declaredBefore (same.trans owned)

theorem run_exclusive (lawful : Lawful runtime) (settled : Settled runtime False s)
    {issued : List (Uuid × Action)}
    (own : Along runtime Prod.snd (OwnUse false) s issued)
    (ran : run runtime s (issued.map (·.2)) = .ok s')
    (exclusive : ExclusivelyHeld s) : ExclusivelyHeld s' := by
  induction issued generalizing s with
  | nil => exact Except.ok.inj ran ▸ exclusive
  | cons action rest ih =>
    obtain ⟨middle, stepped, later⟩ := run_cons.mp ran
    have after := (step_advances lawful settled False.elim stepped).1
    exact ih after (own.2 middle stepped) later (step_exclusive lawful settled own.1 stepped exclusive)

theorem run_own {issued : List (Uuid × Action)} (ran : run runtime s (issued.map (·.2)) = .ok s') :
    Along runtime Prod.snd (fun s use => ∀ guarded, OwnUse guarded s use) s issued ↔
      Along runtime Prod.snd (OwnUse false) s issued := by
  induction issued generalizing s with
  | nil => exact Iff.rfl
  | cons action rest ih =>
    obtain ⟨middle, stepped, later⟩ := run_cons.mp ran
    have after : ∀ next, action.2.step runtime s = .ok next →
        run runtime next (rest.map (·.2)) = .ok s' :=
      fun next again => Except.ok.inj (stepped.symm.trans again) ▸ later
    refine and_congr ⟨fun own => own false, fun own guarded => ?_⟩
      (forall₂_congr fun next again => ih (after next again))
    cases guarded with
    | false => exact own
    | true => exact step_guarded stepped

theorem empty_exclusive : ExclusivelyHeld empty := by
  intro name queue holder owner consumer offset declared
  cases declared

/-- While a queue is exclusive, no declaration of it and no consumer on it is accepted on behalf of
a foreign connection. The accepted uses of exclusive queues in a run are their owners' exactly if
the bindings, deletions and deliveries are, and then a foreign connection holds no record of the
queue and settles none. -/
theorem exclusive_queue_guarded (lawful : Lawful runtime) {issued : List (Uuid × Action)}
    (ran : run runtime .empty (issued.map (·.2)) = .ok s) (declared : s.queues[name]? = some queue)
    (owned : queue.exclusiveOwner = some holder) (foreign : foreigner ≠ holder) :
    (∀ connection command, command.use connection = some (name, true, foreigner) →
      s.validateCommand command ≠ .ok ()) ∧
    (Along runtime Prod.snd (fun s use => ∀ guarded, OwnUse guarded s use) .empty issued ↔
      Along runtime Prod.snd (OwnUse false) .empty issued) ∧
    (Along runtime Prod.snd (OwnUse false) .empty issued →
      (∀ consumer offset, ¬ Holding s name foreigner consumer offset) ∧
      ∀ {consumer deliveryTag multiple command},
        Settlement name foreigner consumer deliveryTag multiple command →
        s.validateCommand command ≠ .ok ()) := by
  have settled := Reachable.settled lawful ⟨_, ran⟩
  refine ⟨fun connection command uses accepted =>
    foreign (guarded_use accepted uses declared owned), run_own ran, ?_⟩
  intro own
  have exclusive := run_exclusive lawful empty_settled own ran empty_exclusive
  have unheld : ∀ consumer offset, ¬ Holding s name foreigner consumer offset :=
    fun consumer offset held =>
      foreign (exclusive name queue holder foreigner consumer offset declared owned held)
  refine ⟨unheld, ?_⟩
  intro consumer deliveryTag multiple command settlement accepted
  obtain ⟨offset, _, held⟩ := validateSettlement_holding settled (settlement.reaches accepted)
  exact unheld consumer offset held

def exclusiveActions :
    List Action := [.command (declareQueue 1 "q" (some 4)), .command (publishSeven 1 "q")]

def ownedActions :
    List Action := exclusiveActions ++ [.command (.deliverQueue 1 "q" .first 1 4 1 false 11)]

theorem exclusive_queue_guarded_owner :
    ∃ s queue, run sevenStore .empty ownedActions = .ok s ∧ s.queues[(1, "q")]? = some queue ∧
      queue.exclusiveOwner = some 4 ∧ s.validateCommand (.registerConsumer 1 "q" 5 1) ≠ .ok () ∧
      ¬ Holding s (1, "q") 5 1 0 := by
  have declares := run_reached sevenStore .empty exclusiveActions (by decide +kernel)
  have ran := run_reached sevenStore .empty ownedActions (by decide +kernel)
  have owned : ∀ actions ∈ [exclusiveActions, ownedActions],
      (reached sevenStore .empty actions).queues[(1, "q")]?.map (·.exclusiveOwner) = some (some 4) := by
    decide +kernel
  obtain ⟨queue, declared, exclusive⟩ := map_eq_some_iff.mp (owned ownedActions (by simp))
  have guarded := exclusive_queue_guarded (loneStore_lawful _)
    (show run sevenStore .empty ((ownedActions.map ((4 : Uuid), ·)).map (·.2)) =
      .ok _ from ran) declared exclusive
    (show (5 : Nat) ≠ 4 by decide)
  refine ⟨_, queue, ran, declared, exclusive, guarded.1 5 _ rfl, (guarded.2.2 ⟨?_, ?_⟩).1 1 0⟩
  · rintro _ _ _ _ _ ⟨⟩ ⟨⟩
  refine fun first declares' => ⟨?_, fun second publishes => ⟨?_, fun _ _ => trivial⟩⟩
  · rintro _ _ _ _ _ ⟨⟩ ⟨⟩
  · rintro _ _ _ again holder ⟨⟩ ⟨⟩ found holds
    have same := declares.symm.trans (run_cons.mpr ⟨first, declares',
      run_cons.mpr ⟨second, publishes, rfl⟩⟩)
    have here := owned exclusiveActions (by simp)
    rw [Except.ok.inj same, found, map_some, holds] at here
    exact (some.inj (some.inj here)).symm

/-- Connection 5 may delete the queue of connection 4, fetches its message, holds it and may settle
it. -/
theorem exclusive_queue_leaks : ∃ s s', run sevenStore .empty exclusiveActions = .ok s ∧
      s.queues[(1, "q")]?.map (·.exclusiveOwner) = some (some 4) ∧
      (s.validateCommand (.deleteQueue 1 "q" false false)).isOk = true ∧
      (s.validateCommand (.deliverQueue 1 "q" .first 1 5 1 false 11)).isOk = true ∧
      run sevenStore s [.command (.deliverQueue 1 "q" .first 1 5 1 false 11)] = .ok s' ∧
      s'.streams[1]?.map (fun stream => stream.records.items.map (·.delivery)) = some [.unacked 5 1 1] ∧
      (s'.validateCommand (.ack 1 "q" 5 1 1 false)).isOk = true := by
  refine ⟨_, _, run_reached sevenStore .empty exclusiveActions ?_, ?_, ?_, ?_,
    run_reached sevenStore _ _ ?_, ?_, ?_⟩
  all_goals decide +kernel

end Exclusive

end IronGraph.Broker
