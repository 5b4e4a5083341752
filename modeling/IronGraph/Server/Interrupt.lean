import Mathlib

/-!
RESET on a Bolt connection: the reader signals it as soon as it is decoded, ahead of the messages
before it.

The reader and the session share the token of the active query and one flag for all pending RESETs;
each step is one operation of one of them. A query is named by the place of its RUN. What the checks
of a handler, the worker of a query and the transport come to is left open. -/

namespace IronGraph.Bolt

open List Option

inductive Message where
  | hello
  | goodbye
  | run
  | fetch
  | begin
  | commit
  | rollback
  | reset
  | route
  | unsupported
  | ended
deriving DecidableEq

inductive SessionState where
  | authentication
  | ready
  | streaming
  | transaction
  | failed
  | closed
deriving DecidableEq

def Message.leads : Message → SessionState → Option SessionState
  | .hello, .authentication => some .ready
  | .begin, .ready => some .transaction
  | .commit, .transaction | .rollback, .transaction => some .ready
  | .route, .ready => some .ready
  | _, _ => none

def SessionState.fail : SessionState → SessionState
  | .authentication | .closed => .closed
  | _ => .failed

inductive Reader where
  | reading
  | signalling
  | sending (message : Message)
  | stopped
deriving DecidableEq

def Reader.hand : Reader → List Message
  | .signalling => [.reset]
  | .sending message => [message]
  | .reading | .stopped => []

/-- What the session does with its message; `serving` has the cursor of the query. -/
inductive Task where
  | receiving
  | publishing
  | checking
  | serving (query : Nat)
  | finishing
deriving DecidableEq

inductive Cause where
  | reset
  | ended
deriving DecidableEq

/-- The messages are those the reader has sent, of which the session is done with the first
`handled`. -/
structure Session where
  messages : List Message
  reader : Reader
  state : SessionState
  task : Task
  handled : Nat
  cursor : Option Nat
  streamReturnState : SessionState
  active : Option Nat
  resetPending : Bool
  cancelled : List (Nat × Cause)

namespace Session

def new : Session where
  messages := []
  reader := .reading
  state := .authentication
  task := .receiving
  handled := 0
  cursor := none
  streamReturnState := .ready
  active := none
  resetPending := false
  cancelled := []

def decoded (session : Session) : List Message := session.messages ++ session.reader.hand

def incoming (session : Session) : Option Message := session.messages[session.handled]?

def cancelActive (cause : Cause) (session : Session) : Session :=
  { session with cancelled := session.active.toList.map (·, cause) ++ session.cancelled }

def clear (session : Session) : Session := { session with active := none }

def answer (state : SessionState) (session : Session) : Session :=
  { session with state, task := .receiving, handled := session.handled + 1 }

end Session

inductive Step : Session → Session → Prop
  | decode {session : Session} (message : Message) (reading : session.reader = .reading)
      (plain : message ≠ .reset ∧ message ≠ .ended) : Step session { session with
        reader := .sending message }
  | decodeReset {session : Session} (reading : session.reader = .reading) :
      Step session { session with reader := .signalling, resetPending := true }
  | signalReset {session : Session} (signalling : session.reader = .signalling) :
      Step session { session.cancelActive .reset with reader := .sending .reset }
  | endOfInput {session : Session} (reading : session.reader = .reading) :
      Step session { session.cancelActive .ended with reader := .sending .ended }
  | send {session : Session} {message : Message} (sending : session.reader = .sending message) :
      Step session { session with
        messages := session.messages ++ [message], reader :=
          if message = .ended then .stopped else .reading }
  -- HELLO, BEGIN and the like, and what is ignored or refused
  | reply {session : Session} {message : Message} {next : SessionState}
      (idle : session.task = .receiving)
      (found : session.incoming = some message) (opened : session.state ≠
        .closed) (plain : message ≠ .ended)
      (leads : message.leads session.state = some next ∨ next = session.state.fail) :
        Step session (session.answer next)
  | run {session : Session} (idle : session.task = .receiving) (found : session.incoming = some .run)
      (accepting : session.state = .ready ∨ session.state = .transaction) :
      Step session { session with task := .publishing, streamReturnState := session.state }
  | publish {session : Session} (task : session.task = .publishing) :
      Step session { session with active := some session.handled, task := .checking }
  | check {session : Session} (task : session.task = .checking) :
      Step session { session with
        cancelled := if session.resetPending then (session.handled, .reset) :: session.cancelled
          else session.cancelled
        task := .serving session.handled }
  | fetch {session : Session} {query : Nat} (idle : session.task = .receiving)
      (found : session.incoming = some .fetch)
      (streaming : session.state = .streaming) (cursor : session.cursor = some query) :
      Step session { session with cursor := none, task := .serving query }
  | keep {session : Session} {query : Nat} (task : session.task = .serving query) :
      Step session ({ session with cursor := some query }.answer .streaming)
  | drain {session : Session} {query : Nat} (task : session.task = .serving query)
      (fetching : session.incoming = some .fetch) :
        Step session (session.clear.answer session.streamReturnState)
  -- an error of the query; only a worker that panicked leaves its token in place
  | drop {session : Session} {query : Nat} (task : session.task = .serving query) (panicked : Bool) :
      Step session ((if panicked then session else session.clear).answer .failed)
  | reset {session : Session} (idle : session.task = .receiving)
      (found : session.incoming = some .reset)
      (accepting : session.state ≠ .authentication ∧ session.state ≠ .closed) :
      Step session { session with task := .finishing }
  | goodbye {session : Session} {message : Message} (idle : session.task = .receiving)
      (found : session.incoming = some message) (leaving : message = .goodbye ∨ message = .ended)
      (opened : session.state ≠ .closed) : Step session { session with task := .finishing }
  | finish {session : Session} {query : Nat} (task : session.task = .finishing)
      (cursor : session.cursor = some query) : Step session { session.clear with cursor := none }
  | finishFails {session : Session} (task : session.task = .finishing) :
      Step session ({ session with cursor := none }.answer
        (if session.incoming = some Message.ended then .closed else session.state.fail))
  | acknowledge {session : Session} (task : session.task = .finishing)
      (cursor : session.cursor = none) : Step session ({ session with resetPending := false }.answer
        (if session.incoming = some Message.reset then .ready else .closed))
  | writeFails {session : Session} (idle : session.task = .receiving) :
      Step session { session with state := session.state.fail }
  | close {session : Session} (closed : session.state = .closed) :
      Step session (session.cancelActive .ended)

namespace Session

variable (session : Session)

def Live (query : Nat) : Prop := session.cursor = some query ∨ session.task = .serving query

def Signalled (place : Nat) : Prop :=
  session.decoded[place]? = some .reset ∧ (session.reader = .signalling →
    place ≠ session.messages.length)

def Awaits (query : Nat) : Prop := session.decoded[query]? = some .run ∧ (session.handled < query ∨
    session.handled = query ∧ ¬ ∃ served, session.task = .serving served)

def Calm : Prop := ∀ first query, session.handled ≤ first → first < query →
    session.decoded[first]? = some .reset → session.decoded[query]? ≠ some .run

end Session

def Session.Fits (session : Session) : Task → Prop
  | .receiving => True
  | .publishing =>
    session.incoming = some .run ∧ (session.state = .ready ∨ session.state = .transaction)
  | .checking =>
    session.incoming = some .run ∧ (session.state = .ready ∨ session.state = .transaction) ∧
      session.active = some session.handled
  | .serving query => (∃ message, session.incoming = some message ∧ message ≠ .reset) ∧
      (session.state ≠ .failed ∧ session.state ≠ .closed) ∧ session.active = some query ∧
        session.cursor = none
  | .finishing => (∃ message, session.incoming = some message) ∧ session.state ≠ .closed

/-- What holds in every run, and, in a calm one, that the flag is up as long as a RUN waits before a
RESET. A flag that is up means that a RESET is still to come, unless the session has failed. -/
structure Sound (calm : Prop) (session : Session) : Prop where
  within : session.handled ≤ session.messages.length
  task : session.Fits session.task
  cursor : ∀ query, session.cursor = some query → session.active = some query ∧
    (session.state = .streaming ∨ session.state = .failed ∨ session.state = .closed)
  active : ∀ query, session.active = some query → query < session.messages.length
  pending : session.resetPending = true → session.state = .failed ∨ session.state = .closed ∨
    ∃ place, session.handled ≤ place ∧ session.decoded[place]? = some .reset
  cancelled : ∀ query, (query, Cause.reset) ∈ session.cancelled →
    ∃ place, query < place ∧ session.decoded[place]? = some .reset
  spaced : calm → ∀ first query last, session.handled ≤ first → first < query → query < last →
    session.decoded[first]? = some .reset → session.decoded[query]? = some .run →
      session.decoded[last]? ≠ some .reset
  raised : calm → session.state ≠ .closed → ∀ query last, session.Awaits query → query < last →
    session.decoded[last]? = some .reset → session.resetPending = true
  heeded : calm → ∀ query last, session.Live query → query < last → session.Signalled last →
    (query, Cause.reset) ∈ session.cancelled

section Steps

variable {calm : Prop} {session next : Session}

section Reader

variable {reader : Reader} {message : Message} {flag : Bool} (reading : session.reader = .reading)
  (hand : reader.hand = [message])

include reading hand

theorem decoded_hear (place : Nat) : { session with reader, resetPending := flag }.decoded[place]? =
    if place = session.messages.length then some message else session.decoded[place]? := by
  have same : session.decoded = session.messages := by simp [Session.decoded, reading, Reader.hand]
  change (session.messages ++ reader.hand)[place]? = _
  rw [same, hand, getElem?_append]
  split
  next inside => rw [if_neg (by omega)]
  next outside =>
    split
    next here => simp [here]
    · rw [getElem?_eq_none (by simp; omega), getElem?_eq_none (by omega)]

/-- A new message is the last one, so it is no RUN before a RESET; a new RESET comes with the flag. -/
theorem Sound.hear (sound : Sound calm session)
    (new : message = .reset ∧ reader = .signalling ∧ flag = true ∧ (calm → session.Calm) ∨
      message ≠ .reset ∧ flag = session.resetPending) :
      Sound calm { session with reader, resetPending := flag } := by
  have heard := @decoded_hear session reader message flag reading hand
  have short : ∀ {place : Nat} {other : Message}, session.decoded[place]? = some other →
      place < session.messages.length := by
    intro place other found
    simpa [Session.decoded, reading, Reader.hand] using (List.getElem?_eq_some_iff.mp found).1
  have kept : ∀ {place : Nat}, session.decoded[place]? = some .reset →
      { session with reader, resetPending := flag }.decoded[place]? = some .reset := by
    intro place found
    rw [heard, if_neg (Nat.ne_of_lt (short found))]
    exact found
  have old : ∀ {place last : Nat} {other also : Message}, place < last →
      { session with reader, resetPending := flag }.decoded[last]? = some also →
      { session with reader, resetPending := flag }.decoded[place]? = some other →
      session.decoded[place]? = some other := by
    intro place last other also before found found'
    rw [heard] at found found'
    split at found'
    next here =>
      rw [if_neg (by omega)] at found
      have bound := short found
      omega
    · exact found'
  refine { sound with pending := ?_, cancelled := ?_, spaced := ?_, raised := ?_, heeded := ?_ }
  · intro raised
    rcases new with ⟨rfl, -⟩ | ⟨-, rfl⟩
    · exact .inr (.inr ⟨session.messages.length, sound.within, by rw [heard, if_pos rfl]⟩)
    · refine (sound.pending raised).imp_right (.imp_right ?_)
      rintro ⟨place, ahead, resets⟩
      exact ⟨place, ahead, kept resets⟩
  · intro query listed
    obtain ⟨place, behind, resets⟩ := sound.cancelled query listed
    exact ⟨place, behind, kept resets⟩
  · intro quiet first query last ahead before behind resets runs resets'
    have runs' := old behind resets' runs
    have resets'' := old before runs resets
    rw [heard] at resets'
    split at resets'
    · rcases new with ⟨-, -, -, waits⟩ | ⟨other, -⟩
      · exact waits quiet first query ahead before resets'' runs'
      · exact other (some.inj resets')
    · exact sound.spaced quiet first query last ahead before behind resets'' runs' resets'
  · intro quiet opened query last awaits behind resets
    rcases new with ⟨-, -, raised, -⟩ | ⟨other, same⟩
    · exact raised
    · have runs := old behind resets awaits.1
      rw [heard] at resets
      split at resets
      · exact absurd (some.inj resets) other
      · exact same.trans (sound.raised quiet opened query last ⟨runs, awaits.2⟩ behind resets)
  · rintro quiet query last live behind ⟨resets, done⟩
    rw [heard] at resets
    split at resets
    next here =>
      rcases new with ⟨-, signals, -⟩ | ⟨other, -⟩
      · exact absurd here (done signals)
      · exact absurd (some.inj resets) other
    · exact sound.heeded quiet query last live behind ⟨resets,
        fun signals => nomatch reading.symm.trans signals⟩

end Reader

theorem Sound.cancelActive {cause : Cause} (sound : Sound calm session)
    (signals : cause = .reset → session.reader = .signalling) :
    Sound calm (session.cancelActive cause) where
  __ := sound
  cancelled query listed := by
    rcases mem_append.mp listed with new | before
    · obtain ⟨other, held, same⟩ := mem_map.mp new
      cases same
      refine ⟨session.messages.length, sound.active query (mem_toList.mp held), ?_⟩
      simp [Session.decoded, Session.cancelActive, signals rfl, Reader.hand]
    · exact sound.cancelled query before
  heeded quiet query last live behind signalled :=
    mem_append_right _ (sound.heeded quiet query last live behind signalled)

theorem Sound.live {query : Nat} (sound : Sound calm session) (live : session.Live query) :
    session.active = some query := by
  rcases live with held | task
  · exact (sound.cursor query held).1
  · have fits := sound.task
    rw [task] at fits
    exact fits.2.2.1

theorem Sound.pass {messages later : List Message} {reader : Reader} (sound : Sound calm session)
    (grown : messages = session.messages ++ later)
    (whole : messages ++ reader.hand = session.decoded)
    (heeded : calm → ∀ query last, session.Live query → query < last →
      { session with messages, reader }.Signalled last → (query, Cause.reset) ∈ session.cancelled) :
    Sound calm { session with messages, reader } := by
  have longer : session.messages.length ≤ messages.length := by simp [grown]
  have same : ∀ {message : Message}, session.incoming = some message →
      { session with messages, reader }.incoming = some message := by
    intro message found
    rw [Session.incoming, grown, List.getElem?_append_left (List.getElem?_eq_some_iff.mp found).1]
    exact found
  have decoded : { session with messages, reader }.decoded = session.decoded := whole
  have fits := sound.task
  refine ⟨Nat.le_trans sound.within longer, ?_, sound.cursor, fun query found =>
    Nat.lt_of_lt_of_le (sound.active query found) longer, by rw [decoded]; exact sound.pending,
    by rw [decoded]; exact sound.cancelled, by rw [decoded]; exact sound.spaced, ?_, heeded⟩
  · dsimp only
    cases task : session.task with
    | receiving => trivial
    | publishing | checking =>
      rw [task] at fits
      exact fits.imp_left same
    | serving query =>
      rw [task] at fits
      obtain ⟨⟨message, found, plain⟩, rest⟩ := fits
      exact ⟨⟨message, same found, plain⟩, rest⟩
    | finishing =>
      rw [task] at fits
      obtain ⟨⟨message, found⟩, rest⟩ := fits
      exact ⟨⟨message, same found⟩, rest⟩
  · unfold Session.Awaits
    rw [decoded]
    exact sound.raised

variable {message : Message} {state : SessionState}

theorem lt_of_incoming (found : session.incoming = some message) :
    session.handled < session.messages.length :=
  (List.getElem?_eq_some_iff.mp found).1

theorem decoded_incoming (found : session.incoming = some message) :
    session.decoded[session.handled]? = some message := by
  rw [Session.decoded, getElem?_append_left (lt_of_incoming found)]
  exact found

theorem Sound.pending_after (sound : Sound calm session) (found : session.incoming = some message)
    (plain : message ≠ .reset) (alive : session.state ≠ .failed ∧ session.state ≠ .closed)
    (raised : session.resetPending = true) :
    ∃ place, session.handled < place ∧ session.decoded[place]? = some .reset := by
  obtain ⟨place, ahead, resets⟩ := ((sound.pending raised).resolve_left alive.1).resolve_left alive.2
  refine ⟨place, Nat.lt_of_le_of_ne ahead ?_, resets⟩
  rintro rfl
  rw [decoded_incoming found] at resets
  exact plain (some.inj resets)

theorem Sound.answer (sound : Sound calm session) (found : session.incoming = some message)
    {cursor active : Option Nat} {flag : Bool} (older : ∀ query, active = some query →
      session.active = some query)
    (held : ∀ query, cursor = some query → session.Live query ∧ active = some query ∧
      (state = .streaming ∨ state = .failed ∨ state = .closed)) (opened : session.state ≠ .closed)
    (leads : flag = session.resetPending ∧ (state = .failed ∨ state = .closed ∨
      message ≠ .reset ∧ session.state ≠ .failed) ∨ flag = false ∧
      (state = .closed ∨ message = .reset)) :
    Sound calm { session with
      cursor, active, resetPending := flag, state, task := .receiving, handled :=
  session.handled + 1 } := by
  refine ⟨lt_of_incoming found, trivial, fun query here => (held query here).2, fun query here =>
    sound.active query (older query here), fun raised => ?_, sound.cancelled,
      fun quiet first query last above =>
    sound.spaced quiet first query last (Nat.le_of_succ_le above), ?_, ?_⟩
  · rcases leads with ⟨rfl, failed | closed | ⟨plain, alive⟩⟩ | ⟨rfl, -⟩
    · exact .inl failed
    · exact .inr (.inl closed)
    · exact .inr (.inr (sound.pending_after found plain ⟨alive, opened⟩ raised))
    · cases raised
  · rintro quiet alive query last ⟨runs, later⟩ behind resets
    have ahead : session.handled < query := by
      rcases later with later | ⟨here, -⟩
      · exact Nat.lt_of_succ_lt later
      · exact Nat.lt_of_succ_le (Nat.le_of_eq here)
    rcases leads with ⟨rfl, -⟩ | ⟨-, closed | rfl⟩
    · exact sound.raised quiet opened query last ⟨runs, .inl ahead⟩ behind resets
    · exact absurd closed alive
    · exact absurd resets (sound.spaced quiet _ query last (Nat.le_refl _) ahead behind
        (decoded_incoming found) runs)
  · rintro quiet query last (here | ⟨⟨⟩⟩) behind signalled
    exact sound.heeded quiet query last (held query here).1 behind signalled

theorem Sound.withTask {back : SessionState} (sound : Sound calm session) {task : Task}
    (idle : ¬ ∃ served, session.task = .serving served) (plain : ¬ ∃ served, task = .serving served)
    (fits : session.Fits task) :
    Sound calm { session with task, streamReturnState := back } := by
  refine { sound with task := ?_, raised := ?_, heeded := ?_ }
  · cases task with
    | _ => exact fits
  · exact fun quiet opened query last awaits =>
      sound.raised quiet opened query last ⟨awaits.1, awaits.2.imp_right fun here => ⟨here.1, idle⟩⟩
  · rintro quiet query last (held | served)
    · exact sound.heeded quiet query last (.inl held)
    · exact absurd ⟨query, served⟩ plain

theorem fail_cases (state : SessionState) : state.fail = .failed ∨ state.fail = .closed := by
  cases state <;> simp [SessionState.fail]

theorem leads_alive {after : SessionState} (leads : message.leads state = some after) :
    message ≠ .reset ∧ state ≠ .streaming ∧ state ≠ .failed ∧ state ≠ .closed := by
  unfold Message.leads at leads
  split at leads
  all_goals first | cases leads; done | simp

theorem Sound.unfetched (sound : Sound calm session)
    (alive : session.state ≠ .streaming ∧ session.state ≠ .failed ∧ session.state ≠ .closed) :
    session.cursor = none := by
  rw [eq_none_iff_forall_ne_some]
  intro query held
  rcases (sound.cursor query held).2 with streaming | failed | closed
  · exact alive.1 streaming
  · exact alive.2.1 failed
  · exact alive.2.2 closed

theorem accepting_alive (accepting : state = .ready ∨ state = .transaction) :
    state ≠ .streaming ∧ state ≠ .failed ∧ state ≠ .closed := by
  rcases accepting with rfl | rfl <;> decide

theorem Sound.step (sound : Sound calm session) (step : Step session next)
    (sparse : calm → session.reader = .reading → next.reader = .signalling → session.Calm) :
    Sound calm next := by
  have fits := sound.task
  cases step with
  | decode message reading plain => exact sound.hear reading rfl (.inr ⟨plain.1, rfl⟩)
  | decodeReset reading =>
    exact sound.hear reading rfl (.inl ⟨rfl, rfl, rfl, fun quiet => sparse quiet reading rfl⟩)
  | signalReset signals =>
    have after : Sound calm (session.cancelActive .reset) := sound.cancelActive fun _ => signals
    refine after.pass (append_nil _).symm
      (by simp [Session.decoded, Session.cancelActive, signals, Reader.hand])
      fun _ query last live _ _ => ?_
    simp [Session.cancelActive, sound.live live]
  | endOfInput reading =>
    have after : Sound calm (session.cancelActive .ended) := sound.cancelActive nofun
    exact after.hear reading rfl (.inr ⟨nofun, rfl⟩)
  | @send message sending =>
    have whole : session.messages ++ [message] ++ (if message = .ended then Reader.stopped
        else .reading).hand =
        session.decoded := by
      split <;> simp [Session.decoded, sending, Reader.hand]
    refine sound.pass rfl whole fun quiet query last live behind signalled => ?_
    refine sound.heeded quiet query last live behind ⟨whole ▸ signalled.1, fun signals => ?_⟩
    exact nomatch sending.symm.trans signals
  | @reply message next idle found opened plain leads =>
    refine sound.answer found (fun _ => id) (fun query held =>
      ⟨.inl held, (sound.cursor query held).1, ?_⟩) opened (.inl ⟨rfl, ?_⟩)
    · rcases leads with leads | rfl
      · cases (sound.unfetched (leads_alive leads).2).symm.trans held
      · exact .inr (fail_cases _)
    · rcases leads with leads | rfl
      · exact .inr (.inr ⟨(leads_alive leads).1, (leads_alive leads).2.2.1⟩)
      · exact (fail_cases _).imp_right .inl
  | run idle found accepting => exact sound.withTask (by simp [idle]) (by simp) ⟨found, accepting⟩
  | publish task =>
    rw [task] at fits
    have empty := sound.unfetched (accepting_alive fits.2)
    have after : Sound calm { session with active := some session.handled } :=
      { sound with
        task := by rw [show (Session.task _) = Task.publishing from task]; exact fits
        cursor := fun query held => (nomatch empty.symm.trans held)
        active := fun query held => some.inj held ▸ lt_of_incoming fits.1 }
    exact after.withTask (by simp [task]) (by simp) ⟨fits.1, fits.2, rfl⟩
  | check task =>
    rw [task] at fits
    obtain ⟨found, accepting, active⟩ := fits
    have alive := accepting_alive accepting
    have empty := sound.unfetched alive
    refine { sound with task := ?_, cancelled := ?_, raised := ?_, heeded := ?_ }
    · exact ⟨⟨.run, found, nofun⟩, alive.2, active, empty⟩
    · intro query listed
      dsimp only at listed
      split at listed
      next raised =>
        rcases mem_cons.mp listed with same | before
        · cases same
          exact sound.pending_after found nofun alive.2 raised
        · exact sound.cancelled query before
      · exact sound.cancelled query listed
    · refine fun quiet opened query last awaits =>
        sound.raised quiet opened query last ⟨awaits.1, .inl (awaits.2.resolve_right ?_)⟩
      exact fun here => here.2 ⟨_, rfl⟩
    · rintro quiet query last (held | ⟨⟨⟩⟩) behind signalled
      · cases empty.symm.trans held
      · have awaits : session.Awaits session.handled :=
          ⟨decoded_incoming found, .inr ⟨rfl, by simp [task]⟩⟩
        simp [sound.raised quiet alive.2.2 _ last awaits behind signalled.1]
  | fetch idle found streaming cursor =>
    have active := (sound.cursor _ cursor).1
    refine { sound with task := ?_, cursor := nofun, raised := ?_, heeded := ?_ }
    · exact ⟨⟨.fetch, found, nofun⟩, by simp [streaming], active, rfl⟩
    · refine fun quiet opened query last awaits =>
        sound.raised quiet opened query last ⟨awaits.1, .inl (awaits.2.resolve_right ?_)⟩
      exact fun here => here.2 ⟨_, rfl⟩
    · rintro quiet query last (⟨⟨⟩⟩ | ⟨⟨⟩⟩)
      exact sound.heeded quiet _ last (.inl cursor)
  | @keep query task =>
    rw [task] at fits
    obtain ⟨⟨message, found, plain⟩, alive, active, -⟩ := fits
    refine sound.answer found (fun _ => id) ?_ alive.2 (.inl ⟨rfl, .inr (.inr ⟨plain, alive.1⟩)⟩)
    rintro other ⟨⟩
    exact ⟨.inr task, active, .inl rfl⟩
  | @drain query task fetching =>
    rw [task] at fits
    obtain ⟨⟨message, found, plain⟩, alive, -, empty⟩ := fits
    exact sound.answer found nofun (fun _ held => nomatch empty.symm.trans held) alive.2
      (.inl ⟨rfl, .inr (.inr ⟨plain, alive.1⟩)⟩)
  | @drop query task panicked =>
    rw [task] at fits
    obtain ⟨⟨message, found, -⟩, alive, -, empty⟩ := fits
    have held : ∀ query, session.cursor = some query → False :=
      fun query held => nomatch empty.symm.trans held
    split
    · exact sound.answer found (fun _ => id) (fun _ here =>
        (held _ here).elim) alive.2 (.inl ⟨rfl, .inl rfl⟩)
    · exact sound.answer found nofun (fun _ here => (held _ here).elim) alive.2 (.inl ⟨rfl, .inl rfl⟩)
  | reset idle found accepting =>
    exact sound.withTask (by simp [idle]) (by simp) ⟨⟨_, found⟩, accepting.2⟩
  | goodbye idle found leaving opened =>
    exact sound.withTask (by simp [idle]) (by simp) ⟨⟨_, found⟩, opened⟩
  | finish task cursor =>
    refine { sound with task := ?_, cursor := nofun, active := nofun, heeded := ?_ }
    · rw [task] at fits
      change Session.Fits _ session.task
      rw [task]
      exact fits
    · rintro quiet query last (⟨⟨⟩⟩ | served)
      exact sound.heeded quiet query last (.inr served)
  | finishFails task =>
    rw [task] at fits
    obtain ⟨⟨message, found⟩, opened⟩ := fits
    refine sound.answer found (fun _ => id) nofun opened (.inl ⟨rfl, ?_⟩)
    split
    · exact .inr (.inl rfl)
    · exact (fail_cases _).imp_right .inl
  | acknowledge task cursor =>
    rw [task] at fits
    obtain ⟨⟨message, found⟩, opened⟩ := fits
    refine sound.answer found (fun _ => id) (fun _ held =>
      nomatch cursor.symm.trans held) opened (.inr ⟨rfl, ?_⟩)
    split
    next resets => exact .inr (some.inj (found.symm.trans resets))
    · exact .inl rfl
  | writeFails idle =>
    refine { sound with
      task := ?_, cursor := ?_, pending := fun _ => (fail_cases _).imp_right .inl, raised := ?_ }
    · rw [show (Session.task _) = Task.receiving from idle]
      trivial
    · exact fun query held => ⟨(sound.cursor query held).1, .inr (fail_cases _)⟩
    · refine fun quiet opened => sound.raised quiet fun closed => opened ?_
      simp [closed, SessionState.fail]
  | close closed => exact sound.cancelActive nofun

theorem sound_new : Sound calm .new := by
  constructor <;> simp [Session.new, Session.decoded, Session.Live, Session.Fits, Reader.hand]

end Steps

def CalmStep (session next : Session) : Prop :=
  Step session next ∧ (session.reader = .reading → next.reader = .signalling → session.Calm)

/-- In a run in which no RESET is decoded while a RUN waits behind another one, every query that was
activated from a RUN before a signalled RESET is cancelled; and in every run a RESET cancels only
the queries before it. -/
theorem reset_cancels_before (session : Session) :
    (Relation.ReflTransGen CalmStep .new session → ∀ query place, session.Live query → query < place →
      session.Signalled place → (query, Cause.reset) ∈ session.cancelled) ∧
    (Relation.ReflTransGen Step .new session → ∀ query, (query, Cause.reset) ∈ session.cancelled →
      ∃ place, query < place ∧ session.decoded[place]? = some .reset) := by
  refine ⟨fun ran => ?_, fun ran => ?_⟩
  · have sound : Sound True session := by
      induction ran with
      | refl => exact sound_new
      | tail _ taken ih => exact ih.step taken.1 fun _ => taken.2
    exact sound.heeded trivial
  · have sound : Sound False session := by
      induction ran with
      | refl => exact sound_new
      | tail _ taken ih => exact ih.step taken False.elim
    exact sound.cancelled

theorem reset_cancels_active : ∃ session, Relation.ReflTransGen CalmStep .new session ∧ session.Live 1 ∧
    session.Signalled 2 ∧ (1, Cause.reset) ∈ session.cancelled ∧ ∃ place, 1 < place ∧
      session.decoded[place]? = some .reset := by
  have ran : Relation.ReflTransGen CalmStep .new .new := .refl
  have ran := ran.tail ⟨.decode .hello rfl (by decide), nofun⟩
  have ran := ran.tail ⟨.send rfl, nofun⟩
  have ran := ran.tail ⟨.reply rfl rfl (by decide) (by decide) (.inl rfl), nofun⟩
  have ran := ran.tail ⟨.decode .run rfl (by decide), nofun⟩
  have ran := ran.tail ⟨.send rfl, nofun⟩
  have ran := ran.tail ⟨.run rfl rfl (.inl rfl), nofun⟩
  have ran := ran.tail ⟨.publish rfl, nofun⟩
  have ran := ran.tail ⟨.check rfl, nofun⟩
  have ran := ran.tail ⟨.decodeReset rfl, fun _ _ first query _ before resets runs => by
    have bound := (List.getElem?_eq_some_iff.mp runs).1
    match query, first, before, bound with
    | 1, 0, _, _ => cases resets⟩
  have ran := ran.tail ⟨.signalReset rfl, nofun⟩
  have cancelled := (reset_cancels_before _).1 ran 1 2 (.inr rfl) (by decide) ⟨rfl, nofun⟩
  have stepped := ran.lift id fun _ _ (taken : CalmStep _ _) => (taken.1 : Step _ _)
  have after := (reset_cancels_before _).2 stepped 1 cancelled
  exact ⟨_, ran, .inr rfl, ⟨rfl, nofun⟩, cancelled, after⟩

theorem reset_misses_between : ∃ session, Relation.ReflTransGen Step .new session ∧ session.Live 2 ∧
    session.Signalled 3 ∧ session.handled ≤ 3 ∧ session.cancelled = [] := by
  have ran : Relation.ReflTransGen Step .new .new := .refl
  have ran := ran.tail (.decode .hello rfl (by decide))
  have ran := ran.tail (.send rfl)
  have ran := ran.tail (.reply rfl rfl (by decide) (by decide) (.inl rfl))
  have ran := ran.tail (.decodeReset rfl)
  have ran := ran.tail (.signalReset rfl)
  have ran := ran.tail (.send rfl)
  have ran := ran.tail (.decode .run rfl (by decide))
  have ran := ran.tail (.send rfl)
  have ran := ran.tail (.decodeReset rfl)
  have ran := ran.tail (.signalReset rfl)
  have ran := ran.tail (.send rfl)
  -- the session answers the first RESET and so takes back the flag of the second
  have ran := ran.tail (.reset rfl rfl (by decide))
  have ran := ran.tail (.acknowledge rfl rfl)
  have ran := ran.tail (.run rfl rfl (.inl rfl))
  have ran := ran.tail (.publish rfl)
  have ran := ran.tail (.check rfl)
  exact ⟨_, ran, .inr rfl, ⟨rfl, nofun⟩, by decide, rfl⟩

end IronGraph.Bolt
