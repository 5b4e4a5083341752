import IronGraph.Engine.WriterCore

/-!
What holds of the ordered writer after any number of turns, whatever each step of each request does.
It is stated with the writes that are prepared but not yet answered, so that it also holds inside a
batch.
-/

namespace IronGraph

open Outcome List Option Prod

variable {σ : Type} {environment : WriterEnvironment σ} {start : Bookmark}
  {waiting : List PreparedWrite} {captured : List RecordBatch} {write : PreparedWrite}
  {item : QueuedWrite} {rest : List QueuedWrite} {error : Error}

/-- Only a successful apply moves the applied bookmark, and it moves it to the applied mutation. -/
structure WriterEnvironment.Lawful (environment : WriterEnvironment σ) : Prop where
  deadlineExpired : ∀ state time,
    environment.appliedBookmark (environment.deadlineExpired state time).1 =
      environment.appliedBookmark state
  tryLockGate : ∀ state time,
    environment.appliedBookmark (environment.tryLockGate state time).1 =
      environment.appliedBookmark state
  commitTimeMillis : ∀ state,
    environment.appliedBookmark (environment.commitTimeMillis state).1 =
      environment.appliedBookmark state
  prepareCommand : ∀ state command time,
    environment.appliedBookmark (environment.prepareCommand state command time).1 =
      environment.appliedBookmark state
  reserveCommand : ∀ state command position,
    environment.appliedBookmark (environment.reserveCommand state command position).1 =
      environment.appliedBookmark state
  completeCommandReservation : ∀ state reservation outcome,
    environment.appliedBookmark (environment.completeCommandReservation state reservation outcome).1 =
      environment.appliedBookmark state
  tryReceive : ∀ state,
    environment.appliedBookmark (environment.tryReceive state).1 = environment.appliedBookmark state
  blockingReceive : ∀ state,
    environment.appliedBookmark (environment.blockingReceive state).1 =
      environment.appliedBookmark state
  applyMutation : ∀ state mutation next applied batch,
    environment.applyMutation state mutation = (next, .ok applied) →
    applied.persistence = some batch → spanMatches mutation.bookmark batch = true →
    environment.appliedBookmark next = mutation.bookmark

def AtPosition (start : Bookmark) (count : Nat) (bookmark : Bookmark) : Prop :=
  bookmark.term = writerTerm start.term ∧ bookmark.index.toNat = start.index.toNat + count + 1

theorem writerTerm_idem (term : UInt64) : writerTerm (writerTerm term) = writerTerm term := by
  unfold writerTerm
  split <;> simp_all

/-- Requests leave the queue in arrival order, and each one that left has its reply or is waiting
for it. -/
def Queued (state : WriterState σ) (waiting : List PreparedWrite) : Prop :=
  ∃ served, state.taken = served ++ state.pending.map (·.reply) ∧
    (state.replies.map (·.1) ++ waiting.map (·.reply)).Perm served ∧
    (state.accepted.map (·.reply)).Sublist served

structure Ordered (environment : WriterEnvironment σ) (start : Bookmark) (state : WriterState σ)
    (waiting : List PreparedWrite) (captured : List RecordBatch) : Prop where
  positioned : ∀ count write, state.accepted[count]? = some write →
    AtPosition start count write.mutation.bookmark
  attempted : state.attempts.map (·.write) <+: state.accepted
  healthy : state.failure = none → state.accepted = state.attempts.map (·.write) ++ waiting
  applied : state.failure = none → (environment.appliedBookmark state.environment).index.toNat =
        start.index.toNat + state.attempts.length ∧
      writerTerm (environment.appliedBookmark state.environment).term = writerTerm start.term
  recorded : state.attempts.map (·.batch) = (state.published ++ captured).map some ∨
    state.failure.isSome ∧ state.attempts.map (·.batch) =
      (state.published ++ captured).map some ++ [none]
  spans : ∀ count batch, (state.published ++ captured)[count]? = some batch →
    AtPosition start count batch.bookmark ∧ batch.firstIndex = batch.bookmark.index
  handed : state.publishedIndex.toNat = start.index.toNat + state.published.length
  acknowledged : ∀ reply response, (reply, .ok response) ∈ state.replies →
    ∃ attempt ∈ state.attempts, attempt.write.reply = reply ∧ attempt.batch.isSome ∧
      attempt.write.mutation.bookmark = response.bookmark

structure Serving (environment : WriterEnvironment σ) (start : Bookmark) (state : WriterState σ)
    (waiting : List PreparedWrite) (captured : List RecordBatch) : Prop where
  queued : Queued state waiting
  ordered : Ordered environment start state waiting captured

section

variable {environment : WriterEnvironment σ} (lawful : environment.Lawful) (state : σ)

include lawful state

theorem deadlinePassed_keeps (deadline : ClientDeadline) :
    environment.appliedBookmark (deadlinePassed environment state deadline).1 =
      environment.appliedBookmark state := by
  unfold deadlinePassed
  split
  · rfl
  · exact lawful.deadlineExpired state _

theorem lockGate_keeps (deadline : ClientDeadline) :
    environment.appliedBookmark (lockGate environment state deadline).1 =
      environment.appliedBookmark state := by
  unfold lockGate
  split
  · rfl
  · exact lawful.tryLockGate state _

theorem resolveCommand_keeps (item : QueuedWrite) :
    environment.appliedBookmark (resolveCommand environment state item).1 =
      environment.appliedBookmark state := by
  unfold resolveCommand
  have timed := lawful.commitTimeMillis state
  split
  · rfl
  · split
    · rfl
    · split
      next next asked =>
        rw [asked] at timed
        exact timed
      next next time asked =>
        rw [asked] at timed
        rw [lawful.prepareCommand, timed]

end

theorem newMutationEntry_bookmark {environment : WriterEnvironment σ} {pos : Bookmark}
    {cmd : WriteCommand} {mutation : MutationEntry}
    (built : newMutationEntry environment pos cmd = .ok mutation) :
    mutation.bookmark = pos := by
  simp only [newMutationEntry, bind_eq_ok, require_eq_ok, pure, Except.pure, Except.ok.injEq] at built
  obtain ⟨_, _, _, _, _, _, _, _, rfl⟩ := built
  rfl

/-- A ready write keeps its reply channel and takes the offered position; only a request behind a
prepared one is held back. -/
def ItemOutcome.Fits (item : QueuedWrite) (position : Bookmark) (first : Bool) : ItemOutcome → Prop
  | .answered _ => True
  | .heldBack _ => first = false
  | .ready write => write.reply = item.reply ∧ write.mutation.bookmark = position

theorem prepareItem_spec (lawful : environment.Lawful) (state : σ) (item : QueuedWrite) (pos : Bookmark)
    (first : Bool) : environment.appliedBookmark (prepareItem environment state item pos first).1 =
        environment.appliedBookmark state ∧
      (prepareItem environment state item pos first).2.Fits item pos first := by
  have expired := deadlinePassed_keeps lawful state item.deadline
  unfold prepareItem
  split
  next next passed =>
    rw [passed] at expired
    exact ⟨expired, trivial⟩
  next next passed =>
    rw [passed] at expired
    have resolved := resolveCommand_keeps lawful next item
    rw [expired] at resolved
    split
    next after error found =>
      rw [found] at resolved
      exact ⟨resolved, trivial⟩
    next after cmd found =>
      rw [found] at resolved
      have reserved := lawful.reserveCommand after cmd pos
      rw [resolved] at reserved
      split
      next last error refused =>
        rw [refused] at reserved
        split
        next full => exact ⟨reserved, full.2⟩
        · exact ⟨reserved, trivial⟩
      next last reservation granted =>
        rw [granted] at reserved
        split
        next error _ =>
          have completed := lawful.completeCommandReservation last reservation .rejected
          rw [reserved] at completed
          split <;>
            next done =>
              rw [done] at completed
              exact ⟨completed, trivial⟩
        next mutation built => exact ⟨reserved, rfl, newMutationEntry_bookmark built⟩

variable {state : WriterState σ}

theorem Ordered.withEnvironment {next : σ} (ordered : Ordered environment start state waiting captured)
    (kept : environment.appliedBookmark next = environment.appliedBookmark state.environment) :
    Ordered environment start { state with environment := next } waiting captured := by
  refine { ordered with applied := ?_ }
  intro sound
  have applied := ordered.applied sound
  rw [← kept] at applied
  exact applied

theorem Ordered.sendError (ordered : Ordered environment start state waiting captured) (reply : Nat)
    (error : Error) : Ordered environment start (state.send reply (.error error)) waiting captured := by
  refine { ordered with acknowledged := ?_ }
  intro found response mem
  simp only [WriterState.send, mem_append, mem_singleton, mk.injEq, reduceCtorEq, and_false,
    or_false] at mem
  exact ordered.acknowledged found response mem

theorem Queued.enqueue (queued : Queued state waiting) (item : QueuedWrite) :
    Queued (state.enqueue item) waiting := by
  obtain ⟨served, split, answered, inOrder⟩ := queued
  refine ⟨served, ?_, answered, inOrder⟩
  simp [WriterState.enqueue, split]

theorem WriterState.send_replies_length (state : WriterState σ) (reply : Nat)
    (result : Result WriteResponse) :
    (state.send reply result).replies.length = state.replies.length + 1 := by
  simp [WriterState.send]

theorem Queued.answerWaiting (queued : Queued state (write :: waiting))
    (result : Result WriteResponse) : Queued (state.send write.reply result) waiting := by
  obtain ⟨served, split, answered, inOrder⟩ := queued
  refine ⟨served, split, ?_, inOrder⟩
  simpa [WriterState.send] using answered

theorem Queued.answerFront (queued : Queued state waiting) (front : state.pending = item :: rest)
    (result : Result WriteResponse) :
    Queued ({ state with pending := rest }.send item.reply result) waiting := by
  obtain ⟨served, split, answered, inOrder⟩ := queued
  refine ⟨served ++ [item.reply], ?_, ?_, inOrder.trans (sublist_append_left _ _)⟩
  · simp [WriterState.send, split, front]
  · simp only [WriterState.send, map_append, map_cons, map_nil, append_assoc]
    refine Perm.trans (Perm.append_left _ perm_append_comm) ?_
    rw [← append_assoc]
    exact answered.append_right _

theorem Queued.accept (queued : Queued state waiting) (front : state.pending = item :: rest)
    (same : write.reply = item.reply) :
    Queued { state with pending := rest, accepted := state.accepted ++ [write] }
      (waiting ++ [write]) := by
  obtain ⟨served, split, answered, inOrder⟩ := queued
  refine ⟨served ++ [item.reply], ?_, ?_, ?_⟩
  · simp [split, front]
  · rw [map_append, ← append_assoc, map_singleton, same]
    exact answered.append_right _
  · simp only [map_append, map_cons, map_nil, same]
    exact inOrder.append_right _

structure Advances (before after : WriterState σ) : Prop where
  taken : before.taken <+: after.taken
  replies : before.replies <+: after.replies
  stopped : after.stopped = before.stopped

theorem Advances.refl (state : WriterState σ) : Advances state state := ⟨prefix_rfl, prefix_rfl, rfl⟩

theorem Advances.trans {first second third : WriterState σ} (left : Advances first second)
    (right : Advances second third) : Advances first third :=
  ⟨left.taken.trans right.taken, left.replies.trans right.replies, right.stopped.trans left.stopped⟩

theorem pullArrivals_spec (lawful : environment.Lawful) (room : Nat) (state : WriterState σ)
    (serving : Serving environment start state waiting captured) :
    Serving environment start (pullArrivals environment room state) waiting captured ∧
      Advances state (pullArrivals environment room state) ∧
      (pullArrivals environment room state).failure = state.failure ∧
      (pullArrivals environment room state).accepted = state.accepted ∧
      state.pending <+: (pullArrivals environment room state).pending := by
  induction room generalizing state with
  | zero => exact ⟨serving, Advances.refl state, rfl, rfl, prefix_rfl⟩
  | succ room ih =>
    have kept := lawful.tryReceive state.environment
    simp only [pullArrivals]
    split
    · exact ⟨serving, Advances.refl state, rfl, rfl, prefix_rfl⟩
    · split
      next next received =>
        rw [received] at kept
        exact ⟨⟨serving.queued, serving.ordered.withEnvironment kept⟩, ⟨prefix_rfl, prefix_rfl, rfl⟩,
          rfl, rfl, prefix_rfl⟩
      next next item received =>
        rw [received] at kept
        have queued : Queued { state with environment := next } waiting := serving.queued
        have moved := serving.ordered.withEnvironment kept
        have ⟨after, advances, failed, valid, pending⟩ :=
          ih ({ state with environment := next }.enqueue item) ⟨queued.enqueue item, { moved with }⟩
        refine ⟨after, ?_, failed, valid, (prefix_append _ _).trans pending⟩
        exact ⟨(prefix_append _ _).trans advances.taken, advances.replies, advances.stopped⟩
      next next control _ received =>
        rw [received] at kept
        have moved := serving.ordered.withEnvironment kept
        exact ⟨⟨serving.queued, { moved with }⟩, ⟨prefix_rfl, prefix_rfl, rfl⟩, rfl, rfl, prefix_rfl⟩

theorem indexed_concat {α : Type} {items : List α} {item : α} {holds : Nat → α → Prop}
    (before : ∀ count value, items[count]? = some value → holds count value)
    (last : holds items.length item) :
    ∀ count value, (items ++ [item])[count]? = some value → holds count value := by
  intro count value found
  rw [getElem?_append] at found
  split at found
  · exact before count value found
  next behind =>
    obtain ⟨rfl, reached⟩ : item = value ∧ count - items.length = 0 := by
      cases gap : count - items.length with
      | zero => simpa [gap] using found
      | succ further => simp [gap] at found
    have same : count = items.length := by omega
    exact same ▸ last

theorem Ordered.accept (ordered : Ordered environment start state waiting captured)
    (sound : state.failure = none)
    (placed : AtPosition start state.accepted.length write.mutation.bookmark) :
    Ordered environment start { state with accepted := state.accepted ++ [write] } (waiting ++ [write])
      captured := by
  have healthy := ordered.healthy sound
  refine { ordered with
    positioned := indexed_concat ordered.positioned placed
    attempted := ordered.attempted.trans (prefix_append _ _)
    healthy := fun _ => by simp [healthy] }

theorem prepareNext_spec (lawful : environment.Lawful) (position : Bookmark) (first : Bool)
    (items : List QueuedWrite) (state : WriterState σ) (queue : state.pending = items)
    (serving : Serving environment start state waiting captured) (sound : state.failure = none)
    (placed : AtPosition start state.accepted.length position) :
    let result := prepareNext environment position first items state
    Serving environment start result.1 (waiting ++ result.2.toList) captured ∧
      Advances state result.1 ∧ result.1.failure = none ∧
      result.1.accepted.length = state.accepted.length + result.2.toList.length ∧
      (first = true → items ≠ [] → state.replies.length <
        result.1.replies.length + result.2.toList.length) := by
  induction items generalizing state with
  | nil =>
    simp only [prepareNext, toList_none, append_nil]
    exact ⟨serving, Advances.refl state, sound, rfl, fun _ impossible => absurd rfl impossible⟩
  | cons item rest ih =>
    have ⟨kept, fits⟩ := prepareItem_spec lawful state.environment item position first
    simp only [prepareNext]
    split
    next next error outcome =>
      rw [outcome] at kept
      have moved := (serving.ordered.withEnvironment kept).sendError item.reply error
      have queued := serving.queued.answerFront queue (.error error)
      have ⟨after, advances, failed, accepted, _⟩ :=
        ih ({ state with environment := next, pending := rest }.send item.reply (.error error))
          rfl ⟨queued, { moved with }⟩ sound placed
      have sent : Advances state
          ({ state with environment := next, pending := rest }.send item.reply (.error error)) :=
        ⟨prefix_rfl, prefix_append _ _, rfl⟩
      refine ⟨after, sent.trans advances, failed, accepted, fun _ _ => ?_⟩
      have longer := advances.replies.length_le
      rw [WriterState.send_replies_length] at longer
      exact Nat.lt_add_right _ longer
    next next cmd outcome =>
      rw [outcome] at kept fits
      have moved := serving.ordered.withEnvironment kept
      obtain ⟨served, split, answered, inOrder⟩ := serving.queued
      simp only [toList_none, append_nil]
      refine ⟨⟨⟨served, by simp [split, queue], answered, inOrder⟩, { moved with }⟩,
        ⟨prefix_rfl, prefix_rfl, rfl⟩, sound, rfl, fun alone => ?_⟩
      exact absurd (alone.symm.trans fits) (by decide)
    next next write outcome =>
      rw [outcome] at kept fits
      have moved := (serving.ordered.withEnvironment kept).accept sound (fits.2.symm ▸ placed)
      refine ⟨⟨serving.queued.accept queue fits.1, { moved with }⟩,
        ⟨prefix_rfl, prefix_rfl, rfl⟩, sound, by simp, fun _ _ => by simp⟩

theorem prepareLoop_spec (lawful : environment.Lawful) (slots : Nat) (nextIndex : UInt64)
    (preparedBytes : Nat) (prepared : List PreparedWrite) (state : WriterState σ)
    (serving : Serving environment start state prepared captured) (sound : state.failure = none)
    (placed : nextIndex.toNat = start.index.toNat + state.accepted.length + 1) :
    let result := prepareLoop environment (writerTerm start.term)
      slots nextIndex preparedBytes prepared state
    Serving environment start result.1 result.2 captured ∧ Advances state result.1 ∧
      result.1.failure = none ∧
        state.replies.length + prepared.length ≤ result.1.replies.length + result.2.length ∧
      (slots ≠ 0 → prepared = [] → state.pending ≠ [] →
        state.replies.length < result.1.replies.length + result.2.length) := by
  induction slots generalizing nextIndex preparedBytes prepared state with
  | zero => exact ⟨serving, Advances.refl state, sound, Nat.le_refl _, fun used => absurd rfl used⟩
  | succ slots ih =>
    have ⟨after, advances, failed, valid, grows⟩ :=
      prepareNext_spec lawful { term := writerTerm start.term, index := nextIndex }
        prepared.isEmpty state.pending state rfl serving sound ⟨rfl, placed⟩
    have longer := advances.replies.length_le
    simp only [prepareLoop]
    split
    next next stopped =>
      simp only [stopped, toList_none, append_nil, length_nil, Nat.add_zero] at *
      refine ⟨after, advances, failed, by omega, fun _ empty queued => ?_⟩
      have grown := grows (by simp [empty]) queued
      omega
    next next write ready =>
      simp only [ready, toList_some, length_singleton] at *
      have counted : state.replies.length + prepared.length ≤
          next.replies.length + (prepared ++ [write]).length := by
        simp only [length_append, length_singleton]
        omega
      have grown : prepared = [] → state.pending ≠ [] →
          state.replies.length < next.replies.length + (prepared ++ [write]).length := by
        intro empty _
        simp only [empty, nil_append, length_singleton]
        omega
      split
      · exact ⟨after, advances, failed, counted, fun _ => grown⟩
      next further added =>
        rw [checkedAdd_eq_some] at added
        split
        · exact ⟨after, advances, failed, counted, fun _ => grown⟩
        · have ⟨pulled, received, unfailed, same, _⟩ := pullArrivals_spec lawful
            (maxWriteBatch - (next.pending.length + (prepared ++ [write]).length)) next after
          have next_placed : further.toNat = start.index.toNat +
              (pullArrivals environment (maxWriteBatch - (next.pending.length +
                (prepared ++ [write]).length)) next).accepted.length + 1 := by
            rw [same, valid, added, placed]
            rfl
          have ⟨served, continued, intact, total, _⟩ :=
            ih further (saturatingAdd preparedBytes write.mutation.payload.length) _ _ pulled
              (unfailed.trans failed) next_placed
          have kept := received.replies.length_le
          refine ⟨served, (advances.trans received).trans continued, intact, by omega,
            fun _ empty queued => ?_⟩
          have more := grown empty queued
          omega

theorem Ordered.recorded_healthy (ordered : Ordered environment start state waiting captured)
    (sound : state.failure = none) :
    state.attempts.map (·.batch) = (state.published ++ captured).map some := by
  rcases ordered.recorded with recorded | ⟨failed, _⟩
  · exact recorded
  · simp [sound] at failed

theorem Ordered.attempt_failed (ordered : Ordered environment start state (write :: waiting) captured)
    (sound : state.failure = none) (next : σ) (error : Error) : Ordered environment start
      { state with
        environment := next
        attempts := state.attempts ++ [{ write, batch := none }]
        failure := some error } waiting captured := by
  have healthy := ordered.healthy sound
  have recorded := ordered.recorded_healthy sound
  refine { ordered with
    attempted := ?_
    healthy := nofun
    applied := nofun
    recorded := .inr ⟨rfl, by simp [recorded]⟩
    acknowledged := ?_ }
  · rw [healthy]
    exact ⟨waiting, by simp⟩
  · intro reply response mem
    obtain ⟨attempt, tried, facts⟩ := ordered.acknowledged reply response mem
    exact ⟨attempt, mem_append_left _ tried, facts⟩

theorem Ordered.attempt_applied {batch : RecordBatch}
    (ordered : Ordered environment start state (write :: waiting) captured)
    (sound : state.failure = none) {next : σ}
    (moved : environment.appliedBookmark next = write.mutation.bookmark)
    (matched : spanMatches write.mutation.bookmark batch = true) : Ordered environment start
      { state with
        environment := next
        attempts := state.attempts ++ [{ write, batch := some batch }] } waiting
      (captured ++ [batch]) := by
  have healthy := ordered.healthy sound
  have recorded := ordered.recorded_healthy sound
  have counted : state.attempts.length = (state.published ++ captured).length := by
    simpa using congrArg length recorded
  simp only [spanMatches, Bool.and_eq_true, beq_iff_eq] at matched
  have placed : AtPosition start state.attempts.length write.mutation.bookmark := by
    apply ordered.positioned
    simp [healthy]
  refine { ordered with
    attempted := ?_
    healthy := fun _ => by simp [healthy]
    applied := ?_
    recorded := .inl (by simp [recorded])
    spans := ?_
    acknowledged := ?_ }
  · rw [healthy]
    exact ⟨waiting, by simp⟩
  · intro _
    rw [moved, placed.1, placed.2]
    exact ⟨by simp [Nat.add_assoc], writerTerm_idem _⟩
  · rw [← append_assoc]
    apply indexed_concat ordered.spans
    rw [← counted, matched.1]
    exact ⟨placed, matched.2⟩
  · intro reply response mem
    obtain ⟨attempt, tried, facts⟩ := ordered.acknowledged reply response mem
    exact ⟨attempt, mem_append_left _ tried, facts⟩

theorem finishWrite_spec (lawful : environment.Lawful)
    (ordered : Ordered environment start state waiting captured)
    (queued : Queued state (write :: waiting)) (outcome : CommandReservationOutcome)
    (result : Result Unit → Result WriteResponse)
    (backed : ∀ completed response, result completed = .ok response →
      ∃ attempt ∈ state.attempts, attempt.write.reply = write.reply ∧ attempt.batch.isSome ∧
        attempt.write.mutation.bookmark = response.bookmark) :
    let after := finishWrite environment state write outcome result
    Serving environment start after waiting captured ∧ Advances state after ∧
      after.failure = state.failure ∧ after.replies.length = state.replies.length + 1 := by
  have kept := lawful.completeCommandReservation state.environment write.reservation outcome
  have moved := ordered.withEnvironment kept
  refine ⟨⟨queued.answerWaiting _, { moved with acknowledged := ?_ }⟩,
    ⟨prefix_rfl, prefix_append _ _, rfl⟩, rfl, WriterState.send_replies_length _ _ _⟩
  intro reply response mem
  simp only [finishWrite, WriterState.send, mem_append, mem_singleton, mk.injEq] at mem
  rcases mem with prior | ⟨rfl, answered⟩
  · exact ordered.acknowledged reply response prior
  · exact backed _ response answered.symm

theorem applyWrite_spec (lawful : environment.Lawful)
    (serving : Serving environment start state (write :: waiting) captured)
    (sound : state.failure = none) :
    let result := applyWrite environment state write
    Serving environment start result.1 waiting (captured ++ result.2.2.toList) ∧
      Advances state result.1 ∧ result.1.failure = result.2.1 ∧
        result.1.replies.length = state.replies.length + 1 := by
  simp only [applyWrite]
  split
  next next error refused =>
    have ordered := serving.ordered.attempt_failed sound next error
    have ⟨after, advances, failed, longer⟩ := finishWrite_spec lawful ordered serving.queued .rejected
      (fun _ => .error error) (fun _ _ => nofun)
    simp only [toList_none, append_nil]
    exact ⟨after, { advances with }, failed, longer⟩
  next next applied answered =>
    split
    next missing =>
      have ordered := serving.ordered.attempt_failed sound next mismatchedSpan
      have ⟨after, advances, failed, longer⟩ := finishWrite_spec lawful ordered serving.queued .applied
        (fun _ => .error mismatchedSpan) (fun _ _ => nofun)
      simp only [missing, toList_none, append_nil]
      exact ⟨after, { advances with }, failed, longer⟩
    next batch matched =>
      have ⟨returned, spans⟩ := filter_eq_some_iff.mp matched
      have moved := lawful.applyMutation _ _ _ _ _ answered returned spans
      have ordered := serving.ordered.attempt_applied sound moved spans
      have ⟨after, advances, failed, longer⟩ := finishWrite_spec lawful ordered serving.queued .applied
        (fun completed => completed.map fun _ =>
          { bookmark := write.mutation.bookmark
            requestId := write.requestId
            payload := applied.response
            duplicate := applied.duplicate }) (by
          intro completed response produced
          cases completed with
          | error _ => cases produced
          | ok _ =>
            cases produced
            exact ⟨_, mem_append_right _ (mem_singleton_self _), rfl, rfl, rfl⟩)
      simp only [matched]
      exact ⟨after, { advances with }, failed.trans sound, longer⟩

theorem applyPrepared_spec (lawful : environment.Lawful) (prepared : List PreparedWrite)
    (fatal : Option Error)
    (batches : List RecordBatch) (state : WriterState σ)
    (serving : Serving environment start state prepared batches)
    (recorded : fatal.isSome → state.failure.isSome) :
    let result := applyPrepared environment prepared fatal batches state
    Serving environment start result.1 [] result.2 ∧ Advances state result.1 ∧
      result.1.replies.length = state.replies.length + prepared.length := by
  induction prepared generalizing fatal batches state with
  | nil => exact ⟨serving, Advances.refl state, rfl⟩
  | cons write rest ih =>
    simp only [applyPrepared]
    split
    next error failed =>
      have broken : state.failure.isSome := by
        cases fatal with
        | some _ => exact recorded rfl
        | none =>
          have same : state.failure = some error := by simpa using failed
          simp [same]
      have ordered : Ordered environment start state rest batches :=
        { serving.ordered with healthy := fun sound => by simp [sound] at broken }
      have ⟨after, advances, same, longer⟩ := finishWrite_spec lawful ordered serving.queued .rejected
        (fun _ => .error error) (fun _ _ => nofun)
      have ⟨final, continued, total⟩ := ih fatal batches _ after (fun _ => same ▸ broken)
      refine ⟨final, advances.trans continued, ?_⟩
      rw [total, longer, length_cons]
      omega
    next failed =>
      have sound : state.failure = none := by
        cases fatal with
        | some _ => cases failed
        | none => simpa using failed
      have ⟨after, advances, same, longer⟩ := applyWrite_spec lawful serving sound
      have ⟨final, continued, total⟩ := ih _ _ _ after (fun found => same ▸ found)
      refine ⟨final, advances.trans continued, ?_⟩
      rw [total, longer, length_cons]
      omega

theorem rejectFront_spec {next : σ} (serving : Serving environment start state [] [])
    (nonempty : state.pending ≠ [])
    (kept : environment.appliedBookmark next = environment.appliedBookmark state.environment)
    (error : Error) :
    let after := { state with environment := next }.rejectFront error
    Serving environment start after [] [] ∧ Advances state after ∧
      state.replies.length < after.replies.length := by
  simp only [WriterState.rejectFront]
  split
  next empty => exact absurd empty nonempty
  next item rest front =>
    have moved := (serving.ordered.withEnvironment kept).sendError item.reply error
    refine ⟨⟨serving.queued.answerFront front _, { moved with }⟩,
      ⟨prefix_rfl, prefix_append _ _, rfl⟩, ?_⟩
    rw [WriterState.send_replies_length]
    exact Nat.lt_succ_self _

theorem processWriterBatch_spec (lawful : environment.Lawful) (state : WriterState σ)
    (serving : Serving environment start state [] []) (nonempty : state.pending ≠ []) :
    (∃ error, processWriterBatch environment state = (state, .error error)) ∨
      ∃ after batches, processWriterBatch environment state = (after, .ok batches) ∧
        Serving environment start after [] batches ∧ Advances state after ∧
        state.replies.length < after.replies.length := by
  simp only [processWriterBatch]
  split
  next error failed => exact .inl ⟨error, rfl⟩
  next sound =>
    right
    split
    next empty => exact absurd empty nonempty
    next front rest queue =>
      have expired := deadlinePassed_keeps lawful state.environment front.deadline
      split
      next next passed =>
        rw [passed] at expired
        exact ⟨_, _, rfl, rejectFront_spec serving nonempty expired _⟩
      next next passed =>
        rw [passed] at expired
        have locked := lockGate_keeps lawful next front.deadline
        rw [expired] at locked
        split
        next last refused =>
          rw [refused] at locked
          exact ⟨_, _, rfl, rejectFront_spec serving nonempty locked _⟩
        next last granted =>
          rw [granted] at locked
          have moved : Serving environment start { state with environment := last } [] [] :=
            ⟨serving.queued, serving.ordered.withEnvironment locked⟩
          have ⟨reached, sameTerm⟩ := moved.ordered.applied sound
          split
          · exact ⟨_, _, rfl, rejectFront_spec serving nonempty locked _⟩
          next nextIndex added =>
            rw [checkedAdd_eq_some] at added
            have counted : state.accepted.length = state.attempts.length := by
              simp [serving.ordered.healthy sound]
            have placed : nextIndex.toNat = start.index.toNat + state.accepted.length + 1 := by
              rw [added, reached, counted]
              rfl
            rw [sameTerm]
            have ⟨prepared, advances, _, _, grown⟩ :=
              prepareLoop_spec lawful maxWriteBatch nextIndex 0 [] _ moved sound placed
            have ⟨applied, continued, answered⟩ :=
              applyPrepared_spec lawful _ none [] _ prepared (fun impossible =>
                absurd impossible (by decide))
            refine ⟨_, _, rfl, applied, { advances.trans continued with }, ?_⟩
            rw [answered]
            exact grown (by decide) rfl nonempty

theorem continuesPublication_of_spans (batches : List RecordBatch) (published : UInt64)
    (spans : ∀ count batch, batches[count]? = some batch →
      batch.bookmark.index.toNat = published.toNat + count + 1 ∧
      batch.firstIndex = batch.bookmark.index) :
    continuesPublication published batches = true := by
  induction batches generalizing published with
  | nil => rfl
  | cons batch rest ih =>
    have ⟨reached, single⟩ := spans 0 batch rfl
    simp only [continuesPublication, Bool.and_eq_true, beq_iff_eq, decide_eq_true_eq, single]
    refine ⟨⟨?_, UInt64.le_refl _⟩, ih batch.bookmark.index ?_⟩
    · rw [checkedAdd_eq_some, reached]
      rfl
    · intro count later found
      have ⟨placed, whole⟩ := spans (count + 1) later (by simpa using found)
      exact ⟨by omega, whole⟩

theorem publish_spec {batches : List RecordBatch}
    (serving : Serving environment start state [] batches) :
    ∃ after, publish state batches = (after, .ok ()) ∧ Serving environment start after [] [] ∧
      Advances state after ∧ after.replies = state.replies := by
  unfold publish
  split
  next empty =>
    rw [getLast?_eq_none_iff] at empty
    exact ⟨state, rfl, empty ▸ serving, Advances.refl state, rfl⟩
  next last ending =>
    have ordered := serving.ordered
    have continued : continuesPublication state.publishedIndex batches = true := by
      apply continuesPublication_of_spans
      intro count batch found
      have ⟨placed, whole⟩ := ordered.spans (state.published.length + count) batch (by
        rw [getElem?_append_right (Nat.le_add_right _ _), Nat.add_sub_cancel_left]
        exact found)
      refine ⟨?_, whole⟩
      rw [placed.2, ordered.handed]
      omega
    have positive : 0 < batches.length := by
      cases batches with
      | nil => cases ending
      | cons _ _ => simp
    have ⟨placed, _⟩ := ordered.spans (state.published.length + (batches.length - 1)) last (by
      rw [getElem?_append_right (Nat.le_add_right _ _), Nat.add_sub_cancel_left,
        ← getLast?_eq_getElem?]
      exact ending)
    rw [if_pos continued]
    refine ⟨_, rfl, ⟨serving.queued, { ordered with recorded := ?_, spans := ?_, handed := ?_ }⟩,
      ⟨prefix_rfl, prefix_rfl, rfl⟩, rfl⟩
    · simpa using ordered.recorded
    · simpa using ordered.spans
    · rw [placed.2, length_append]
      omega

theorem rejectPending_spec (serving : Serving environment start state [] []) (error : Error) :
    Serving environment start (rejectPending error state) []
      [] ∧ Advances state (rejectPending error state) ∧
      (rejectPending error state).replies.length = state.replies.length + state.pending.length := by
  obtain ⟨served, split, answered, inOrder⟩ := serving.queued
  refine ⟨⟨⟨state.taken, by simp [rejectPending], ?_, ?_⟩, { serving.ordered with acknowledged := ?_ }⟩,
    ⟨prefix_rfl, prefix_append _ _, rfl⟩, by simp [rejectPending]⟩
  · rw [split]
    simpa [rejectPending, Function.comp_def] using answered.append_right (state.pending.map (·.reply))
  · rw [split]
    exact inOrder.trans (sublist_append_left _ _)
  · intro reply response mem
    simp only [rejectPending, mem_append, List.mem_map, mk.injEq, reduceCtorEq, and_false,
      exists_false, or_false] at mem
    exact serving.ordered.acknowledged reply response mem

structure WriterInvariant (environment : WriterEnvironment σ) (start : Bookmark)
    (state : WriterState σ) : Prop where
  serving : Serving environment start state [] []
  drained : state.stopped = true → state.pending = []

structure TurnProgress (before after : WriterState σ) : Prop where
  taken : before.taken <+: after.taken
  replies : before.replies <+: after.replies
  answers : before.pending ≠ [] → before.replies.length < after.replies.length

theorem serveQueue_spec (lawful : environment.Lawful) (serving : Serving environment start state [] [])
    (runs : state.stopped = false) (nonempty : state.pending ≠ []) :
    WriterInvariant environment start (serveQueue environment state) ∧
      TurnProgress state (serveQueue environment state) := by
  have ⟨pulled, received, _, _, kept⟩ :=
    pullArrivals_spec lawful (maxWriteBatch - state.pending.length) state serving
  have queued : (pullArrivals environment (maxWriteBatch - state.pending.length) state).pending ≠
      [] := by
    intro empty
    rw [empty, prefix_nil] at kept
    exact nonempty kept
  have longer := received.replies.length_le
  simp only [serveQueue]
  rcases processWriterBatch_spec lawful _ pulled queued
    with ⟨error, failed⟩ | ⟨after, batches, processed, facts⟩
  · rw [failed]
    have ⟨rejected, advances, total⟩ := rejectPending_spec pulled error
    have positive := length_pos_iff.mpr queued
    refine ⟨⟨⟨rejected.queued, { rejected.ordered with }⟩, fun _ => rfl⟩,
      received.taken.trans advances.taken, received.replies.trans advances.replies, fun _ => ?_⟩
    show state.replies.length < (rejectPending error _).replies.length
    omega
  · obtain ⟨served, advances, grown⟩ := facts
    obtain ⟨final, published, settled, continued, same⟩ := publish_spec served
    simp only [processed, published]
    refine ⟨⟨settled, fun stopped => ?_⟩, ?_⟩
    · rw [continued.stopped, advances.stopped, received.stopped, runs] at stopped
      cases stopped
    · have whole := (received.trans advances).trans continued
      refine ⟨whole.taken, whole.replies, fun _ => ?_⟩
      show state.replies.length < final.replies.length
      rw [same]
      omega

theorem receiveNext_spec (lawful : environment.Lawful)
    (serving : Serving environment start state [] []) :
    Serving environment start (receiveNext environment state).1 [] [] ∧
      Advances state (receiveNext environment state).1 ∧
      (receiveNext environment state).1.pending = state.pending := by
  simp only [receiveNext]
  split
  · exact ⟨⟨serving.queued, { serving.ordered with }⟩, ⟨prefix_rfl, prefix_rfl, rfl⟩, rfl⟩
  · have moved := serving.ordered.withEnvironment (lawful.blockingReceive state.environment)
    exact ⟨⟨serving.queued, moved⟩, ⟨prefix_rfl, prefix_rfl, rfl⟩, rfl⟩

theorem writerTurn_spec (lawful : environment.Lawful) (inv : WriterInvariant environment start state) :
    WriterInvariant environment start (writerTurn environment state) ∧
      TurnProgress state (writerTurn environment state) := by
  unfold writerTurn
  split
  next stopped =>
    refine ⟨inv, prefix_rfl, prefix_rfl, fun queued => ?_⟩
    exact absurd (inv.drained stopped) queued
  next runs =>
    have runs : state.stopped = false := by simpa using runs
    split
    next idle =>
      have idle : state.pending = [] := by simpa using idle
      have ⟨received, advances, same⟩ := receiveNext_spec lawful inv.serving
      have halted := advances.stopped.trans runs
      have empty := same.trans idle
      split
      next after write msg =>
        rw [msg] at received advances halted
        have arrived : Serving environment start (after.enqueue write) [] [] :=
          ⟨received.queued.enqueue write, { received.ordered with }⟩
        have ⟨final, progress⟩ := serveQueue_spec lawful arrived halted (by simp [WriterState.enqueue])
        exact ⟨final, advances.taken.trans ((prefix_append _ _).trans progress.taken),
          advances.replies.trans progress.replies, fun queued => absurd idle queued⟩
      all_goals next msg =>
        rw [msg] at received advances empty
        exact ⟨⟨⟨received.queued, { received.ordered with }⟩, fun _ => empty⟩, advances.taken,
          advances.replies, fun queued => absurd idle queued⟩
    next queued => exact serveQueue_spec lawful inv.serving runs (by simpa using queued)

theorem startWriter_invariant (environment : WriterEnvironment σ) (start : σ) :
    WriterInvariant environment (environment.appliedBookmark start)
      (startWriter environment start) where
  serving :=
    { queued := ⟨[], rfl, Perm.refl _, Sublist.refl _⟩
      ordered :=
        { positioned := nofun
          attempted := prefix_rfl
          healthy := fun _ => rfl
          applied := fun _ => ⟨rfl, rfl⟩
          recorded := .inl rfl
          spans := nofun
          handed := rfl
          acknowledged := nofun } }
  drained := nofun

theorem runWriter_invariant (lawful : environment.Lawful) (start : σ) (turns : Nat) :
    WriterInvariant environment (environment.appliedBookmark start)
      (runWriter environment start turns) := by
  induction turns with
  | zero => exact startWriter_invariant environment start
  | succ turns ih => exact (writerTurn_spec lawful ih).1

theorem runWriter_taken (lawful : environment.Lawful) (start : σ) (turns later : Nat) :
    (runWriter environment start turns).taken <+: (runWriter environment start (turns +
      later)).taken := by
  induction later with
  | zero => exact prefix_rfl
  | succ later ih =>
    have progress := (writerTurn_spec lawful (runWriter_invariant lawful start (turns + later))).2
    exact ih.trans progress.taken

theorem WriterInvariant.answered_count (inv : WriterInvariant environment start state) :
    state.taken.length = state.replies.length + state.pending.length := by
  obtain ⟨served, split, answered, _⟩ := inv.serving.queued
  have counted := answered.length_eq
  simp only [map_nil, append_nil, length_map] at counted
  simp [split, counted]

theorem runWriter_answers (lawful : environment.Lawful) (start : σ) (turns later : Nat) :
    min (runWriter environment start turns).taken.length later ≤
      (runWriter environment start (turns + later)).replies.length := by
  induction later with
  | zero => simp
  | succ later ih =>
    have inv := runWriter_invariant lawful start (turns + later)
    have progress := (writerTurn_spec lawful inv).2
    have counted := inv.answered_count
    have longer := (runWriter_taken lawful start turns later).length_le
    have kept := progress.replies.length_le
    show _ ≤ (writerTurn environment (runWriter environment start (turns + later))).replies.length
    by_cases queued : (runWriter environment start (turns + later)).pending = []
    · rw [queued, length_nil] at counted
      omega
    · have grown := progress.answers queued
      omega

variable (environment : WriterEnvironment σ)

theorem pullArrivals_attempts (room : Nat) (state : WriterState σ) :
    (pullArrivals environment room state).attempts = state.attempts ∧
      (pullArrivals environment room state).failure = state.failure := by
  induction room generalizing state with
  | zero => exact ⟨rfl, rfl⟩
  | succ room ih =>
    simp only [pullArrivals]
    split
    · exact ⟨rfl, rfl⟩
    · split
      · exact ⟨rfl, rfl⟩
      · exact ih _
      · exact ⟨rfl, rfl⟩

theorem serveQueue_failed (failed : state.failure = some error) :
    (serveQueue environment state).attempts = state.attempts ∧
      (serveQueue environment state).failure = some error := by
  have ⟨same, kept⟩ := pullArrivals_attempts environment (maxWriteBatch - state.pending.length) state
  rw [failed] at kept
  simp only [serveQueue, processWriterBatch, kept]
  exact ⟨same, kept⟩

theorem writerTurn_failed (failed : state.failure = some error) :
    (writerTurn environment state).attempts = state.attempts ∧
      (writerTurn environment state).failure = some error := by
  have received : (receiveNext environment state).1.attempts = state.attempts ∧
      (receiveNext environment state).1.failure = some error := by
    simp only [receiveNext]
    split <;> exact ⟨rfl, failed⟩
  unfold writerTurn
  split
  · exact ⟨rfl, failed⟩
  · split
    · split
      next after write msg =>
        rw [msg] at received
        have arrived : (after.enqueue write).failure = some error := received.2
        have ⟨same, kept⟩ := serveQueue_failed environment arrived
        exact ⟨same.trans received.1, kept⟩
      all_goals next msg =>
        rw [msg] at received
        exact received
    · exact serveQueue_failed environment failed

theorem runWriter_failed (start : σ) (turns later : Nat)
    (failed : (runWriter environment start turns).failure = some error) :
    (runWriter environment start (turns + later)).attempts =
      (runWriter environment start turns).attempts ∧
      (runWriter environment start (turns + later)).failure = some error := by
  induction later with
  | zero => exact ⟨rfl, failed⟩
  | succ later ih =>
    have ⟨same, kept⟩ := writerTurn_failed environment ih.2
    exact ⟨same.trans ih.1, kept⟩

/-- The ordered writer, after any number of turns and whatever the steps of each request return.

Requests: the answered ones are the requests taken first, each with one reply, and a request at a
given place of the queue is answered within as many further turns. Applications: the accepted writes
keep the queue order and hold consecutive positions after the starting bookmark, they are tried in
that order, and all of them are while nothing failed. Records: persistence got the records of
exactly the applied writes, in order and as one contiguous range; at most one application failed,
and none follows it. -/
theorem writer_serves_in_order (environment : WriterEnvironment σ)
    (lawful : environment.Lawful) (start : σ) (turns : Nat) :
    let state := runWriter environment start turns
    let origin := environment.appliedBookmark start
    (∃ served, state.taken = served ++ state.pending.map (·.reply) ∧
      (state.replies.map (·.1)).Perm served ∧ (state.accepted.map (·.reply)).Sublist served) ∧
    (state.stopped = true → state.pending = []) ∧
    (∀ (place reply : Nat), state.taken[place]? = some reply →
      ∃ result, (reply, result) ∈ (runWriter environment start (turns + (place + 1))).replies) ∧
    (∀ count write, state.accepted[count]? = some write →
      AtPosition origin count write.mutation.bookmark) ∧
    state.attempts.map (·.write) <+: state.accepted ∧
    (state.failure = none → state.attempts.map (·.write) = state.accepted) ∧
    (state.attempts.map (·.batch) = state.published.map some ∨
      state.failure.isSome ∧ state.attempts.map (·.batch) = state.published.map some ++ [none]) ∧
    (∀ count batch, state.published[count]? = some batch →
      AtPosition origin count batch.bookmark ∧ batch.firstIndex = batch.bookmark.index) ∧
    (∀ reply response, (reply, .ok response) ∈ state.replies →
      ∃ attempt ∈ state.attempts, attempt.write.reply = reply ∧ attempt.batch.isSome ∧
        attempt.write.mutation.bookmark = response.bookmark) ∧
    (state.failure.isSome → ∀ later,
      (runWriter environment start (turns + later)).attempts = state.attempts) := by
  intro state origin
  have invariant := runWriter_invariant lawful start turns
  have ordered := invariant.serving.ordered
  refine ⟨?_, invariant.drained, ?_, ordered.positioned, ordered.attempted, ?_, ?_, ?_,
    ordered.acknowledged, ?_⟩
  · simpa [Queued] using invariant.serving.queued
  · intro place reply found
    have later := runWriter_invariant lawful start (turns + (place + 1))
    have answers := runWriter_answers lawful start turns (place + 1)
    have inside : place < (runWriter environment start turns).taken.length :=
      (List.getElem?_eq_some_iff.mp found).1
    obtain ⟨arrived, extended⟩ := runWriter_taken lawful start turns (place + 1)
    obtain ⟨served, split, answered, _⟩ := later.serving.queued
    simp only [map_nil, append_nil] at answered
    have counted := answered.length_eq
    rw [length_map] at counted
    have reached : place < served.length := by omega
    have kept : served[place]? = some reply := by
      rw [← getElem?_append_left reached, ← split, ← extended, getElem?_append_left inside]
      exact found
    have member := answered.mem_iff.mpr (mem_of_getElem? kept)
    rw [List.mem_map] at member
    obtain ⟨⟨_, result⟩, sent, rfl⟩ := member
    exact ⟨result, sent⟩
  · intro sound
    simpa using (ordered.healthy sound).symm
  · simpa using ordered.recorded
  · simpa using ordered.spans
  · intro failed later
    obtain ⟨error, failed⟩ := isSome_iff_exists.mp failed
    exact (runWriter_failed environment start turns later failed).1

def plainEnvironment : WriterEnvironment (Bookmark × List WriterMessage) where
  appliedBookmark state := state.1
  deadlineExpired state _ := (state, false)
  tryLockGate state _ := (state, true)
  commitTimeMillis state := (state, some 0)
  prepareCommand state command _ := (state, .ok command)
  reserveCommand state _ position := (state, .ok { token := none, position, pipelined := true })
  bodyChecksum _ := .ok Digest.zero
  completeCommandReservation state _ _ := (state, .ok ())
  applyMutation state mutation :=
    ((mutation.bookmark, state.2), .ok
      { response := []
        duplicate := false
        persistence := some
          { firstIndex := mutation.bookmark.index, bookmark := mutation.bookmark, operations := [] } })
  tryReceive state := ((state.1, state.2.tail), state.2.head?)
  blockingReceive state := ((state.1, state.2.tail), state.2.head?)

theorem plainEnvironment_lawful : plainEnvironment.Lawful where
  deadlineExpired _ _ := rfl
  tryLockGate _ _ := rfl
  commitTimeMillis _ := rfl
  prepareCommand _ _ _ := rfl
  reserveCommand _ _ _ := rfl
  completeCommandReservation _ _ _ := rfl
  tryReceive _ := rfl
  blockingReceive _ := rfl
  applyMutation := by
    intro state mutation next applied batch answered _ _
    cases answered
    rfl

def plainWrite (reply : Nat) : QueuedWrite :=
  { reply
    command := some
      { kind := .graph, projectId := some 1, requestId := none, commitTimeMillis := 0, payload := [1] }
    deadline := { instant := none }
    commandPrepared := false }

def plainStart : Bookmark × List WriterMessage :=
  ({ term := 1, index := 4 }, [.write (plainWrite 7), .write (plainWrite 8)])

theorem writer_serves_in_order_plain : (runWriter plainEnvironment plainStart 1).taken = [7, 8] ∧
      (runWriter plainEnvironment plainStart 1).published.map (·.bookmark.index) = [5, 6] ∧
      ∃ result, (8, result) ∈ (runWriter plainEnvironment plainStart (1 + (1 + 1))).replies := by
  have taken : (runWriter plainEnvironment plainStart 1).taken = [7, 8] := by decide +kernel
  have facts := writer_serves_in_order plainEnvironment plainEnvironment_lawful plainStart 1
  refine ⟨taken, by decide +kernel, facts.2.2.1 1 8 ?_⟩
  rw [taken]
  rfl

end IronGraph
