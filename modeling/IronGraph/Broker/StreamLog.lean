import IronGraph.Broker.Slots

/-!
A stream as a numbered log: its references carry consecutive offsets from the base to the next
offset, and a reference held by a consumer carries the tag its offset determines.
-/

namespace IronGraph.Broker

open Std Sliding List

structure StreamWell (stream : StreamState) : Prop where
  filled : stream.records.Filled
  based : stream.records.head = stream.baseOffset
  ended : stream.records.tail = stream.nextOffset
  bounded : stream.nextOffset < u64Limit
  numbered : ∀ {index reference}, stream.records.items[index]? = some reference →
    reference.offset = stream.baseOffset + index
  tagged : ∀ {reference owner consumer tag}, reference ∈ stream.records.items →
    reference.delivery = .unacked owner consumer tag → owner ≠ 0 ∧ tag = reference.offset + 1

def StreamState.appended (stream : StreamState) (references : List StreamReference) (bytes : Nat) :
    StreamState :=
  { stream with
    records := stream.records.pushAll references
    nextOffset := stream.nextOffset + references.length
    retainedBytes := stream.retainedBytes + bytes }

theorem empty_streamWell : StreamWell StreamState.empty :=
  ⟨Window.empty_filled, rfl, rfl, by decide, nofun, nofun⟩

variable {ref : StreamReference}

section StreamWell

variable {stream : StreamState}

theorem StreamWell.length (well : StreamWell stream) :
    stream.nextOffset = stream.baseOffset + stream.records.items.length := by
  have ordered := well.filled.ordered
  have length := well.filled.length_items
  have based := well.based
  have ended := well.ended
  unfold Window.size at length
  omega

section

variable (well : StreamWell stream)

include well

theorem StreamWell.position (mem : ref ∈ stream.records.items) :
    stream.baseOffset ≤ ref.offset ∧ ref.offset < stream.nextOffset ∧
      stream.records.items[ref.offset - stream.baseOffset]? = some ref := by
  obtain ⟨index, found⟩ := List.mem_iff_getElem?.mp mem
  have offset := well.numbered found
  have inside := (List.getElem?_eq_some_iff.mp found).1
  have length := well.length
  refine ⟨by omega, by omega, ?_⟩
  rw [offset, Nat.add_sub_cancel_left]
  exact found

theorem StreamWell.offset_injective {first second : StreamReference}
    (memberFirst : first ∈ stream.records.items) (memberSecond : second ∈ stream.records.items)
    (same : first.offset = second.offset) : first = second := by
  have foundFirst := (well.position memberFirst).2.2
  rw [same, (well.position memberSecond).2.2, Option.some.injEq] at foundFirst
  exact foundFirst.symm

theorem StreamWell.getByOffset (mem : ref ∈ stream.records.items) :
    stream.getByOffset ref.offset = some (ref.offset, ref) := by
  obtain ⟨lower, _, found⟩ := well.position mem
  rw [well.filled.getElem?_items] at found
  have based := well.based
  have here : stream.records.head + (ref.offset - stream.baseOffset) = ref.offset := by omega
  rw [here] at found
  simp [StreamState.getByOffset, lower, here, found]

theorem StreamWell.getByOffset_eq_some {offset pos : Nat}
    (found : stream.getByOffset offset = some (pos, ref)) :
    ref ∈ stream.records.items ∧ ref.offset = offset := by
  unfold StreamState.getByOffset at found
  split at found
  next lower =>
    simp only [Option.map_eq_some_iff, Prod.mk.injEq] at found
    obtain ⟨value, has, _, same⟩ := found
    subst same
    rw [← well.filled.getElem?_items] at has
    have numbered := well.numbered has
    exact ⟨mem_of_getElem? has, by omega⟩
  · cases found

theorem StreamWell.pairwise : stream.records.items.Pairwise fun prior later =>
    prior.offset < later.offset := by
  rw [pairwise_iff_getElem]
  intro first second insideFirst insideSecond ordered
  have numberedFirst := well.numbered (getElem?_eq_getElem insideFirst)
  have numberedSecond := well.numbered (getElem?_eq_getElem insideSecond)
  omega

theorem StreamWell.nodup_offsets : (stream.records.items.map (·.offset)).Nodup :=
  pairwise_map.mpr (well.pairwise.imp Nat.ne_of_lt)

theorem StreamWell.appended {refs : List StreamReference}
    (numbered : ∀ index ref, refs[index]? = some ref →
      ref.offset = stream.nextOffset + index) (ready : ∀ ref ∈ refs, ref.delivery = .ready)
    (bounded : stream.nextOffset + refs.length < u64Limit) (bytes : Nat) :
    StreamWell (stream.appended refs bytes) ∧
      (stream.appended refs bytes).records.items = stream.records.items ++ refs := by
  obtain ⟨filled, items, head, tail⟩ := well.filled.pushAll refs
  refine ⟨⟨filled, head.trans well.based, ?_, bounded, ?_, ?_⟩, items⟩
  · rw [StreamState.appended, tail, well.ended]
  · intro index ref found
    simp only [StreamState.appended, items] at found
    by_cases old : index < stream.records.items.length
    · rw [getElem?_append_left old] at found
      exact well.numbered found
    · rw [getElem?_append_right (by omega)] at found
      have offset := numbered _ _ found
      have length := well.length
      change ref.offset = stream.baseOffset + index
      omega
  · intro ref owner consumer tag mem held
    simp only [StreamState.appended, items, mem_append] at mem
    rcases mem with old | new
    · exact well.tagged old held
    · rw [ready ref new] at held
      cases held

theorem StreamWell.popFront {rest : List StreamReference}
    (front : stream.records.items = ref :: rest) :
    ∃ records, stream.records.popFront = some (ref, records) ∧ records.items = rest ∧
      StreamWell { stream with records := records, baseOffset := saturatingAdd ref.offset 1 } := by
  obtain ⟨records, popped, filled, items, head, tail, _⟩ := well.filled.popFront front
  have member : ref ∈ stream.records.items := by simp [front]
  have first := well.numbered (show stream.records.items[0]? = some ref by simp [front])
  have inside := (well.position member).2.1
  have bounded := well.bounded
  have based := well.based
  have next : saturatingAdd ref.offset 1 = stream.baseOffset + 1 := by
    unfold saturatingAdd
    omega
  refine ⟨records, popped, items, ⟨filled, by simp only [next]; omega, by rw [tail, well.ended],
    bounded, ?_, ?_⟩⟩
  · intro index other found
    simp only [items] at found
    have numbered := well.numbered (show stream.records.items[index + 1]? = some other by
      rw [front, getElem?_cons_succ, found])
    simp only [next]
    omega
  · intro other owner consumer tag memberOther held
    simp only [items] at memberOther
    exact well.tagged (by rw [front]; exact mem_cons_of_mem _ memberOther) held

theorem StreamWell.clear : StreamWell { stream with
      records := stream.records.clear
      baseOffset := stream.nextOffset
      retainedBytes := 0 } := by
  have nothing := stream.records.items_clear
  refine ⟨stream.records.clear_filled, well.ended, well.ended, well.bounded, ?_, ?_⟩
  · intro index ref found
    simp [nothing] at found
  · intro ref owner consumer tag member
    simp [nothing] at member

end

end StreamWell

/-- A rewrite of references that moves no message and tags whatever it hands out. -/
structure Redelivery (rewrite : StreamReference → StreamReference) : Prop where
  offset : ∀ reference, (rewrite reference).offset = reference.offset
  message : ∀ reference, (rewrite reference).message = reference.message
  tagged : ∀ {reference owner consumer tag}, (rewrite reference).delivery =
    .unacked owner consumer tag → reference.delivery = .unacked owner consumer tag ∨
      (owner ≠ 0 ∧ tag = reference.offset + 1)

def rewriteAt (rewrite : StreamReference → StreamReference) (offsets : List Nat)
    (reference : StreamReference) : StreamReference :=
  if reference.offset ∈ offsets then rewrite reference else reference

structure Rewrote (rewrite : StreamReference → StreamReference) (before : StreamState)
    (offsets : List Nat) (after : StreamState) : Prop where
  well : StreamWell after
  baseOffset : after.baseOffset = before.baseOffset
  nextOffset : after.nextOffset = before.nextOffset
  retainedBytes : after.retainedBytes = before.retainedBytes
  items : after.records.items = before.records.items.map (rewriteAt rewrite offsets)

section Rewrote

variable {before after : StreamState} {rewrite : StreamReference → StreamReference}
  {offsets : List Nat}

theorem Rewrote.refl (well : StreamWell before) : Rewrote rewrite before [] before := by
  refine ⟨well, rfl, rfl, rfl, ?_⟩
  have unchanged : rewriteAt rewrite [] = id := by
    funext ref
    simp [rewriteAt]
  rw [unchanged, map_id]

theorem Redelivery.rewriteAt_offset (redelivery : Redelivery rewrite) (ref : StreamReference) :
    (rewriteAt rewrite offsets ref).offset = ref.offset := by
  unfold rewriteAt
  split
  · exact redelivery.offset ref
  · rfl

theorem Redelivery.rewriteAt_message (redelivery : Redelivery rewrite) (ref : StreamReference) :
    (rewriteAt rewrite offsets ref).message = ref.message := by
  unfold rewriteAt
  split
  · exact redelivery.message ref
  · rfl

variable (rewrote : Rewrote rewrite before offsets after)
include rewrote

theorem Rewrote.messages (redelivery : Redelivery rewrite) : after.messages = before.messages := by
  unfold StreamState.messages
  rw [rewrote.items, map_map]
  apply map_congr_left
  intro ref _
  exact redelivery.rewriteAt_message ref

theorem Rewrote.getByOffset (mem : ref ∈ before.records.items) (pending : ref.offset ∉ offsets) :
    after.getByOffset ref.offset = some (ref.offset, ref) := by
  apply rewrote.well.getByOffset
  rw [rewrote.items, mem_map]
  exact ⟨ref, mem, by simp [rewriteAt, pending]⟩

theorem Rewrote.step (redelivery : Redelivery rewrite)
    (member : ref ∈ before.records.items) (pending : ref.offset ∉ offsets) :
    Rewrote rewrite before (offsets ++ [ref.offset])
      { after with records := after.records.set ref.offset (rewrite ref) } := by
  have well := rewrote.well
  have memberAfter : ref ∈ after.records.items := by
    rw [rewrote.items, mem_map]
    exact ⟨ref, member, by simp [rewriteAt, pending]⟩
  obtain ⟨lower, upper, here⟩ := well.position memberAfter
  have based := well.based
  have ended := well.ended
  obtain ⟨filled, items⟩ := well.filled.set (rewrite ref)
    (show after.records.head ≤ ref.offset ∧ ref.offset < after.records.tail by omega)
  rw [based] at items
  -- Offsets are distinct, so the position that is set is the one the added offset names.
  have rewritten : (after.records.set ref.offset (rewrite ref)).items =
      before.records.items.map (rewriteAt rewrite (offsets ++ [ref.offset])) := by
    rw [items, rewrote.items]
    apply ext_getElem?
    intro index
    rw [getElem?_set, length_map, getElem?_map, getElem?_map]
    cases found : before.records.items[index]? with
    | none =>
      rw [getElem?_eq_none_iff] at found
      split
      · rw [if_neg (by omega)]
        rfl
      · rfl
    | some other =>
      have numbered := well.numbered (show after.records.items[index]? = some _ by
        rw [rewrote.items, getElem?_map, found]; rfl)
      rw [redelivery.rewriteAt_offset] at numbered
      have inside := (List.getElem?_eq_some_iff.mp found).1
      by_cases same : ref.offset - after.baseOffset = index
      · rw [if_pos same, if_pos (same ▸ inside)]
        rw [same, rewrote.items, getElem?_map, found] at here
        have equal : other = ref := by
          have atOffset : other.offset = ref.offset := by omega
          simpa [rewriteAt, atOffset, pending] using here
        simp [rewriteAt, equal]
      · rw [if_neg same]
        have apart : other.offset ≠ ref.offset := by omega
        simp [rewriteAt, apart]
  refine ⟨⟨filled, well.based, well.ended, well.bounded, ?_, ?_⟩, rewrote.baseOffset,
    rewrote.nextOffset, rewrote.retainedBytes, rewritten⟩
  · intro index other found
    simp only [items, getElem?_set] at found
    split at found
    next same =>
      split at found
      · rw [Option.some.injEq] at found
        rw [← found, redelivery.offset]
        change ref.offset = after.baseOffset + index
        omega
      · cases found
    · exact well.numbered found
  · intro other owner consumer tag memberOther held
    simp only [items] at memberOther
    rcases mem_or_eq_of_mem_set memberOther with old | new
    · exact well.tagged old held
    · rw [new] at held
      rw [new, redelivery.offset]
      rcases redelivery.tagged held with unchanged | handed
      · exact well.tagged memberAfter unchanged
      · exact handed

end Rewrote

end IronGraph.Broker
