import IronGraph.Library.OrderedMap
import IronGraph.Types

/-!
Admission of writes. A call holds the mutex of the counters from its first look at them to its end,
so a run of any callers is a sequence of attempts and of permits that are dropped.
-/

namespace IronGraph

open Std OrderedMap Error Multiset

abbrev ConnectionId := Nat

inductive AdmissionClass where
  | client
  | broker
  | control
  | cancellation

def AdmissionClass.isControl : AdmissionClass → Bool
  | .control | .cancellation => true
  | .client | .broker => false

structure AdmissionLimits where
  maxRequests : Nat
  maxEncodedBytes : Nat
  reservedControlRequests : Nat
  reservedControlBytes : Nat
  maxRequestsPerConnection : Nat
  maxEncodedBytesPerConnection : Nat
  retryAfterMs : Nat

structure ConnectionUsage where
  requests : Nat
  bytes : Nat

structure AdmissionState where
  requests : Nat
  bytes : Nat
  connections : ExtTreeMap ConnectionId ConnectionUsage

structure AdmissionPermit where
  connection : ConnectionId
  encodedBytes : Nat

def AdmissionClass.requestLimit (admission : AdmissionClass) (limits : AdmissionLimits) : Nat :=
  if admission.isControl then limits.maxRequests
    else limits.maxRequests - limits.reservedControlRequests

def AdmissionClass.byteLimit (admission : AdmissionClass) (limits : AdmissionLimits) : Nat :=
  if admission.isControl then limits.maxEncodedBytes
    else limits.maxEncodedBytes - limits.reservedControlBytes

variable (limits : Option AdmissionLimits)

def fullError (message : String) :
    Error := asRetryable .writeAdmissionFull message (limits.map (·.retryAfterMs))

/-- Whether the deadline has passed is a parameter. The connection is charged after the totals. -/
def tryAdmitUntil (expired : Bool) (connection : ConnectionId) (admission : AdmissionClass)
    (encodedBytes : Nat) (s : AdmissionState) : AdmissionState × Result AdmissionPermit :=
  let usage := s.connections.getD connection ⟨0, 0⟩
  if expired then (s,
    .error (asRetryable .deadlineExceeded "write deadline expired before admission" none))
  else if encodedBytes = 0 ∨ limits.any (·.maxEncodedBytes < encodedBytes) then
    (s, .error (invalidData "invalid admitted mutation byte size"))
  else if connection = 0 then (s, .error (invalidData "write admission requires a connection identity"))
  else if !admission.isControl ∧ limits.any (·.maxRequestsPerConnection ≤ usage.requests) then
    (s, .error (fullError limits "connection write-admission share is full"))
  else if !admission.isControl ∧ (u64Limit ≤ usage.bytes + encodedBytes ∨
      limits.any (·.maxEncodedBytesPerConnection < usage.bytes + encodedBytes)) then
    (s, .error (fullError limits "connection write-admission byte share is full"))
  else if u64Limit ≤ s.requests + 1 then (s, .error (internal "write-admission request count overflow"))
  else if u64Limit ≤ s.bytes + encodedBytes then (s,
    .error (internal "write-admission byte count overflow"))
  else if limits.any fun limits =>
      admission.requestLimit limits < s.requests + 1 || admission.byteLimit limits <
        s.bytes + encodedBytes then
    (s, .error (fullError limits "write-admission capacity is full"))
  else
    let s := { s with requests := s.requests + 1, bytes := s.bytes + encodedBytes }
    if u64Limit ≤ usage.bytes + encodedBytes then (s,
      .error (internal "connection byte accounting overflow"))
    else
      let usage := ⟨(usage.requests + 1) % u64Limit, usage.bytes + encodedBytes⟩
      ({ s with connections := s.connections.insert connection usage },
        .ok { connection, encodedBytes })

def releaseInner (s : AdmissionState) (permit : AdmissionPermit) : AdmissionState :=
  let s := { s with requests := s.requests - 1, bytes := s.bytes - permit.encodedBytes }
  match s.connections[permit.connection]? with
  | none => s
  | some usage =>
    let usage : ConnectionUsage := ⟨usage.requests - 1, usage.bytes - permit.encodedBytes⟩
    { s with connections :=
        if usage.requests = 0 then s.connections.erase permit.connection
        else s.connections.insert permit.connection usage }

/-- The states of a controller, with the permits that are held. -/
inductive Admitted : AdmissionState → Multiset AdmissionPermit → Prop
  | start : Admitted ⟨0, 0, ∅⟩ 0
  | attempt {s permits} (reached : Admitted s permits) (expired : Bool) (connection : ConnectionId)
      (admission : AdmissionClass) (encodedBytes : Nat) :
        Admitted (tryAdmitUntil limits expired connection admission encodedBytes s).1
        (match (tryAdmitUntil limits expired connection admission encodedBytes s).2 with
          | .error _ => permits
          | .ok permit => permit ::ₘ permits)
  | drop {s permit permits} (reached : Admitted s (permit ::ₘ permits)) :
      Admitted (releaseInner s permit) permits

def usageOf (permits : Multiset AdmissionPermit) (connection : ConnectionId) : ConnectionUsage :=
  let held := permits.filter (·.connection = connection)
  ⟨held.card, (held.map (·.encodedBytes)).sum⟩

structure Accounted (s : AdmissionState) (permits : Multiset AdmissionPermit) : Prop where
  requests : s.requests = permits.card
  bytes : s.bytes = (permits.map (·.encodedBytes)).sum
  connections : ∀ connection : ConnectionId, s.connections[connection]? =
    if (usageOf permits connection).requests = 0 then none else some (usageOf permits connection)

variable {limits} {s : AdmissionState} {permits : Multiset AdmissionPermit}

theorem usageOf_cons (permit : AdmissionPermit) (connection : ConnectionId) :
    usageOf (permit ::ₘ permits) connection = if permit.connection = connection then
      ⟨(usageOf permits connection).requests + 1,
        (usageOf permits connection).bytes + permit.encodedBytes⟩
    else usageOf permits connection := by
  unfold usageOf
  split
  next here => simp [here, Nat.add_comm]
  next apart => simp [apart]

theorem Accounted.usage (accounted : Accounted s permits) (connection : ConnectionId) :
    s.connections.getD connection ⟨0, 0⟩ = usageOf permits connection := by
  rw [ExtTreeMap.getD_eq_getD_getElem?, accounted.connections]
  split
  next nobody =>
    have none : permits.filter (·.connection = connection) = 0 := card_eq_zero.mp nobody
    simp [usageOf, none]
  · rfl

theorem Accounted.within (accounted : Accounted s permits) (connection : ConnectionId) :
    (usageOf permits connection).requests ≤ s.requests ∧
    (usageOf permits connection).bytes ≤ s.bytes := by
  have parts := congrArg (fun held =>
    (map (·.encodedBytes) held).sum) (filter_add_not (·.connection = connection) permits)
  simp only [map_add, Multiset.sum_add] at parts
  rw [accounted.requests, accounted.bytes, ← parts]
  exact ⟨card_le_card (filter_le _ _), Nat.le_add_right _ _⟩

theorem Accounted.drop {permit : AdmissionPermit} (accounted : Accounted s (permit ::ₘ permits)) :
    Accounted (releaseInner s permit) permits := by
  have charged := accounted.connections permit.connection
  rw [usageOf_cons, if_pos rfl, if_neg (Nat.succ_ne_zero _)] at charged
  have requests := accounted.requests
  have bytes := accounted.bytes
  simp only [card_cons, map_cons, sum_cons] at requests bytes
  simp only [releaseInner, charged, Nat.add_sub_cancel]
  refine ⟨?_, ?_, fun connection => ?_⟩
  · exact requests ▸ Nat.add_sub_cancel _ _
  · exact bytes ▸ Nat.add_sub_cancel_left _ _
  have others := accounted.connections connection
  rw [usageOf_cons] at others
  by_cases here : permit.connection = connection
  · subst here
    split
    next last => rw [getElem?_erase, if_pos rfl]
    next more => rw [getElem?_insert, if_pos rfl]
  · rw [if_neg here] at others
    split
    · rw [getElem?_erase, if_neg here, others]
    · rw [getElem?_insert, if_neg here, others]

/-- What an attempt comes to: a permit within the limits of its class, or an error and nothing else. -/
def Attempted (limits : Option AdmissionLimits) (s : AdmissionState)
    (permits : Multiset AdmissionPermit)
    (admission : AdmissionClass) : AdmissionState × Result AdmissionPermit → Prop
  | (after, .error _) => after = s
  | (after, .ok permit) => Accounted after (permit ::ₘ permits) ∧ ∀ bounds ∈ limits,
      after.requests ≤ admission.requestLimit bounds ∧ after.bytes ≤ admission.byteLimit bounds

theorem Accounted.attempted (accounted : Accounted s permits) (expired : Bool)
    (connection : ConnectionId)
    (admission : AdmissionClass) (encodedBytes : Nat) : Attempted limits s permits admission
      (tryAdmitUntil limits expired connection admission encodedBytes s) := by
  have small := accounted.within connection
  simp only [tryAdmitUntil, accounted.usage]
  iterate 5
    split
    · rfl
  split
  · rfl
  next counted =>
  split
  · rfl
  next sized =>
  split
  · rfl
  next fits =>
  -- The connection has no more than the totals, so charging it cannot overflow any more.
  rw [if_neg (by omega), Nat.mod_eq_of_lt (by omega)]
  refine ⟨⟨?_, ?_, fun other => ?_⟩, ?_⟩
  · simp [accounted.requests]
  · simp [accounted.bytes, Nat.add_comm]
  · rw [getElem?_insert, usageOf_cons]
    split
    next here => simp [here]
    · exact accounted.connections other
  · rintro bounds ⟨⟩
    simpa using fits

/-- In every state of a controller its counters are the sums over the permits that are held. -/
theorem permits_accounted (reached : Admitted limits s permits) : Accounted s permits ∧
    ∀ expired connection admission encodedBytes, Attempted limits s permits admission
      (tryAdmitUntil limits expired connection admission encodedBytes s) := by
  have accounted : Accounted s permits := by
    induction reached with
    | start => exact ⟨rfl, rfl, fun _ => by simp [usageOf]⟩
    | @attempt s permits _ expired connection admission encodedBytes ih =>
      have attempted : Attempted limits _ _ _ _ :=
        ih.attempted expired connection admission encodedBytes
      cases outcome : tryAdmitUntil limits expired connection admission encodedBytes s with
      | mk after result =>
        rw [outcome] at attempted
        cases result with
        | error => exact attempted ▸ ih
        | ok permit => exact attempted.1
    | drop _ ih => exact ih.drop
  exact ⟨accounted, accounted.attempted⟩

/-- Two requests, of which one is kept for control. -/
def narrow : AdmissionLimits where
  maxRequests := 2
  maxEncodedBytes := 100
  reservedControlRequests := 1
  reservedControlBytes := 50
  maxRequestsPerConnection := 2
  maxEncodedBytesPerConnection := 50
  retryAfterMs := 10

def oneClient : AdmissionState := ⟨1, 5, (∅ : ExtTreeMap ConnectionId ConnectionUsage).insert 1 ⟨1, 5⟩⟩

def clientAndControl : AdmissionState := ⟨2, 12, oneClient.connections.insert 2 ⟨1, 7⟩⟩

/-- A second client is refused, a control request of its connection is admitted, and the first
permit is dropped. -/
theorem permits_accounted_narrow :
    tryAdmitUntil (some narrow) false 2 .client 7 oneClient =
        (oneClient, .error (fullError (some narrow) "write-admission capacity is full")) ∧
      tryAdmitUntil (some narrow) false 2 .control 7 oneClient = (clientAndControl, .ok ⟨2, 7⟩) ∧
      Accounted (releaseInner clientAndControl ⟨1, 5⟩) {⟨2, 7⟩} := by
  have admitted : tryAdmitUntil (some narrow) false 1 .client 5 ⟨0, 0, ∅⟩ = (oneClient,
      .ok ⟨1, 5⟩) := by
    simp [tryAdmitUntil, narrow, AdmissionClass.isControl, AdmissionClass.requestLimit,
      AdmissionClass.byteLimit, u64Limit, oneClient]
  have refused : tryAdmitUntil (some narrow) false 2 .client 7 oneClient =
      (oneClient, .error (fullError (some narrow) "write-admission capacity is full")) := by
    simp [tryAdmitUntil, narrow, AdmissionClass.isControl, AdmissionClass.requestLimit,
      u64Limit, oneClient, ExtTreeMap.getD_insert]
  have reserved : tryAdmitUntil (some narrow) false 2 .control 7 oneClient = (clientAndControl,
      .ok ⟨2, 7⟩) := by
    simp [tryAdmitUntil, narrow, AdmissionClass.isControl, AdmissionClass.requestLimit,
      AdmissionClass.byteLimit, u64Limit, oneClient, clientAndControl, ExtTreeMap.getD_insert]
  have first := (Admitted.start : Admitted (some narrow) _ _).attempt false 1 .client 5
  rw [admitted] at first
  have second := first.attempt false 2 .client 7
  rw [refused] at second
  have third := second.attempt false 2 .control 7
  rw [reserved] at third
  change Admitted _ clientAndControl (⟨2, 7⟩ ::ₘ ⟨1, 5⟩ ::ₘ 0) at third
  rw [cons_swap] at third
  exact ⟨refused, reserved, (permits_accounted third.drop).1⟩

end IronGraph
