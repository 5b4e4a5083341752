import IronGraph.Storage.RecordTables

/-!
The record store refines an ordered map of whole values with a bookmark: a commit is accepted
exactly when its batches continue the bookmark, and a refused commit leaves the tables alone.
-/

namespace IronGraph

open Std PrefixOrder FixedBytes Outcome RecordTables

def continues (bookmark : Bookmark) (batch : RecordBatch) : Bool :=
  batch.bookmark.term != 0 && batch.firstIndex.toNat == bookmark.index.toNat + 1 &&
    decide (bookmark.term ≤ batch.bookmark.term) && decide (batch.firstIndex ≤ batch.bookmark.index)

def continuesAll : Bookmark → List RecordBatch → Bool
  | _, [] => true
  | bookmark, batch :: rest => continues bookmark batch && continuesAll batch.bookmark rest

/-- What the store is for: an ordered map of whole values and the position it has reached. -/
structure RecordImage where
  records : RecordMap
  bookmark : Bookmark

namespace RecordImage

def empty : RecordImage := { records := ∅, bookmark := default }

def advance (image : RecordImage) (batches : List RecordBatch) : RecordImage :=
  { records := applyOperations image.records (batches.flatMap RecordBatch.operations)
    bookmark := (batches.getLast?.map RecordBatch.bookmark).getD image.bookmark }

theorem advance_append (image : RecordImage) (first second : List RecordBatch) :
    image.advance (first ++ second) = (image.advance first).advance second := by
  simp only [advance, List.flatMap_append, applyOperations_append, List.getLast?_append]
  cases second.getLast? <;> rfl

end RecordImage

structure Refines (hash : Bytes → Digest) (tables : RecordTables) (image : RecordImage) : Prop where
  represented : Represents hash tables image.records
  bookmark : tables.bookmark = some (encodeBookmark image.bookmark)
  valid : image.bookmark.term = 0 ↔ image.bookmark.index = 0

theorem decodeBookmark_encodeBookmark (bookmark : Bookmark) (valid : bookmark.term = 0 ↔
    bookmark.index = 0) : decodeBookmark (encodeBookmark bookmark) = .ok bookmark := by
  have term := ofLeBytes_leBytes 8 bookmark.term.toNat bookmark.term.toNat_lt
  have index := ofLeBytes_leBytes 8 bookmark.index.toNat bookmark.index.toNat_lt
  have zeroTerm : bookmark.term.toNat = 0 ↔ bookmark.term = 0 := UInt64.toNat_inj (b := 0)
  have zeroIndex : bookmark.index.toNat = 0 ↔ bookmark.index = 0 := UInt64.toNat_inj (b := 0)
  have matched : ((bookmark.term.toNat == 0) == (bookmark.index.toNat == 0)) = true := by
    rw [beq_iff_eq, Bool.eq_iff_iff, beq_iff_eq, beq_iff_eq, zeroTerm, zeroIndex]
    exact valid
  simp [decodeBookmark, encodeBookmark, term, index, matched, require, bind, Except.bind,
    pure, Except.pure]

section Commits

variable {hash : Bytes → Digest} {records : RecordMap} {batch : RecordBatch} {tables : RecordTables}
  {image : RecordImage}

theorem continues_iff (bookmark : Bookmark) (batch : RecordBatch) : continues bookmark batch = true ↔
      batch.bookmark.term ≠ 0 ∧ checkedAdd bookmark.index 1 = some batch.firstIndex ∧
        bookmark.term ≤ batch.bookmark.term ∧ batch.firstIndex ≤ batch.bookmark.index := by
  simp [continues, checkedAdd_eq_some, and_assoc]

variable {bookmark : Bookmark}

theorem continues_valid (valid : continues bookmark batch = true) :
    batch.bookmark.term = 0 ↔ batch.bookmark.index = 0 := by
  obtain ⟨term, next, _, pos⟩ := (continues_iff bookmark batch).mp valid
  rw [checkedAdd_eq_some] at next
  have positive : batch.bookmark.index ≠ 0 := by
    intro zero
    rw [zero, UInt64.le_iff_toNat_le, next] at pos
    simp at pos
  simp [term, positive]

def sizedBatch (batch : RecordBatch) : Prop := ∀ operation ∈ batch.operations, operation.sized

theorem commitBatch_accepted (represented : Represents hash tables records) (sized : sizedBatch batch)
    (valid : continues bookmark batch = true) :
    ∃ next, commitBatch hash (tables, bookmark) batch = .ok (next, batch.bookmark) ∧
      Represents hash next (applyOperations records batch.operations) := by
  obtain ⟨term, follows, monotone, pos⟩ := (continues_iff bookmark batch).mp valid
  obtain ⟨next, applied, written, _⟩ := applyRecordOps_spec represented batch.operations sized
  refine ⟨next, ?_, written⟩
  simp [commitBatch, term, follows, monotone, pos, applied, require, orElse, bind, Except.bind,
    pure, Except.pure]

theorem commitBatch_refused (hash : Bytes → Digest) (tables : RecordTables)
    (refused : continues bookmark batch = false) :
    ∃ error, commitBatch hash (tables, bookmark) batch = .error error := by
  cases outcome : commitBatch hash (tables, bookmark) batch with
  | error error => exact ⟨error, rfl⟩
  | ok next =>
    simp only [commitBatch, bind_eq_ok, require_eq_ok, orElse_eq_ok, bne_iff_ne, beq_iff_eq,
      decide_eq_true_eq] at outcome
    obtain ⟨_, term, expected, follows, _, first, _, monotone, _, pos, _⟩ := outcome
    have valid := (continues_iff bookmark batch).mpr ⟨term, first ▸ follows, monotone, pos⟩
    rw [refused] at valid
    cases valid

theorem commitBatches_spec (represented : Represents hash tables records) (bookmark : Bookmark)
    (batches : List RecordBatch) (sized : ∀ batch ∈ batches, sizedBatch batch) :
    if continuesAll bookmark batches then
      ∃ next, batches.foldlM (commitBatch hash) (tables, bookmark) =
          .ok (next, (batches.getLast?.map RecordBatch.bookmark).getD bookmark) ∧
        Represents hash next (applyOperations records (batches.flatMap RecordBatch.operations))
    else ∃ error, batches.foldlM (commitBatch hash) (tables, bookmark) = .error error := by
  induction batches generalizing tables records bookmark with
  | nil => exact ⟨tables, rfl, represented⟩
  | cons batch rest ih =>
    by_cases valid : continues bookmark batch = true
    · obtain ⟨middle, committed, kept⟩ :=
        commitBatch_accepted represented (sized batch (by simp)) valid
      have later := ih kept batch.bookmark fun other mem => sized other (by simp [mem])
      rw [List.foldlM_cons, committed, continuesAll, valid, Bool.true_and, List.flatMap_cons,
        applyOperations_append]
      split
      next continued =>
        rw [if_pos continued] at later
        obtain ⟨next, ran, written⟩ := later
        refine ⟨next, ran.trans ?_, written⟩
        cases rest with
        | nil => rfl
        | cons other others => simp [List.getLast?_cons]
      next continued =>
        rw [if_neg continued] at later
        exact later
    · rw [Bool.not_eq_true] at valid
      obtain ⟨error, failed⟩ := commitBatch_refused hash tables valid
      simp only [continuesAll, valid, Bool.false_and, Bool.false_eq_true, if_false]
      exact ⟨error, by simp [List.foldlM_cons, failed, bind, Except.bind]⟩

theorem continuesAll_valid {batches : List RecordBatch}
    (valid : bookmark.term = 0 ↔ bookmark.index = 0)
    (accepted : continuesAll bookmark batches = true) :
    let last := (batches.getLast?.map RecordBatch.bookmark).getD bookmark
    last.term = 0 ↔ last.index = 0 := by
  induction batches generalizing bookmark with
  | nil => exact valid
  | cons batch rest ih =>
    rw [continuesAll, Bool.and_eq_true] at accepted
    have later := ih (continues_valid accepted.1) accepted.2
    cases rest with
    | nil => exact continues_valid accepted.1
    | cons other others => simpa [List.getLast?_cons] using later

theorem durableBookmark_spec (refines : Refines hash tables image) :
    tables.durableBookmark = .ok image.bookmark := by
  rw [durableBookmark, bind_eq_ok]
  refine ⟨encodeBookmark image.bookmark, ?_, decodeBookmark_encodeBookmark image.bookmark refines.valid⟩
  rw [orElse_eq_ok, refines.bookmark]

/-- One commit: it is accepted exactly when its batches continue the bookmark, and it changes the store
only when it is accepted. -/
theorem commit_spec (refines : Refines hash tables image) (batches : List RecordBatch)
    (sized : ∀ batch ∈ batches, sizedBatch batch) : if continuesAll image.bookmark batches then
      (tables.commit hash batches).2 = .ok () ∧
      Refines hash (tables.commit hash batches).1 (image.advance batches)
    else ∃ error, tables.commit hash batches = (tables, .error error) := by
  have durable := durableBookmark_spec refines
  have written := commitBatches_spec refines.represented image.bookmark batches sized
  cases batches with
  | nil => exact ⟨rfl, refines⟩
  | cons batch rest =>
    split
    next valid =>
      rw [if_pos valid] at written
      obtain ⟨next, ran, represented⟩ := written
      have committed : tables.commitTransaction hash (batch :: rest) =
          .ok { next with
            bookmark := some (encodeBookmark (image.advance (batch :: rest)).bookmark) } := by
        rw [commitTransaction]
        simp only [List.isEmpty_cons, Bool.false_eq_true, if_false, durable, bind_eq_ok]
        exact ⟨image.bookmark, rfl, _, ran, rfl⟩
      simp only [commit, committed, true_and]
      exact ⟨⟨represented.header, represented.chunk, represented.sized⟩, rfl,
        continuesAll_valid refines.valid valid⟩
    next refused =>
      rw [if_neg refused] at written
      obtain ⟨error, failed⟩ := written
      have rejected : tables.commitTransaction hash (batch :: rest) = .error error := by
        rw [commitTransaction]
        simp only [List.isEmpty_cons, Bool.false_eq_true, if_false, durable]
        exact bind_eq_error.mpr (.inr ⟨image.bookmark, rfl, bind_eq_error.mpr (.inl failed)⟩)
      exact ⟨error, by simp only [commit, rejected]⟩

end Commits

variable (hash : Bytes → Digest)

def commitStep (state : RecordTables × List RecordBatch) (batches : List RecordBatch) :
    RecordTables × List RecordBatch :=
  match state.1.commit hash batches with
  | (tables, .ok _) => (tables, state.2 ++ batches)
  | (tables, .error _) => (tables, state.2)

def runCommits (commits : List (List RecordBatch)) : RecordTables × List RecordBatch :=
  commits.foldl (commitStep hash) (empty, [])

theorem empty_refines : Refines hash RecordTables.empty RecordImage.empty := by
  refine ⟨⟨?_, ?_, ?_⟩, rfl, by decide⟩
  · simp [RecordTables.empty, RecordImage.empty]
  · simp [RecordTables.empty, RecordImage.empty]
  · simp [RecordImage.empty]

theorem commitStep_refines {hash : Bytes → Digest} {state : RecordTables × List RecordBatch}
    (refines : Refines hash state.1 (RecordImage.empty.advance state.2)) (batches : List RecordBatch)
    (sized : ∀ batch ∈ batches, sizedBatch batch) : Refines hash (commitStep hash state batches).1
      (RecordImage.empty.advance (commitStep hash state batches).2) := by
  have committed := commit_spec refines batches sized
  unfold commitStep
  split at committed
  next valid =>
    generalize outcomeEq : state.1.commit hash batches = outcome at committed
    obtain ⟨tables, result⟩ := outcome
    obtain ⟨rfl, advanced⟩ := committed
    simp only [RecordImage.advance_append]
    exact advanced
  next refused =>
    obtain ⟨error, failed⟩ := committed
    simp only [failed]
    exact refines

theorem runCommits_refines (hash : Bytes → Digest) (commits : List (List RecordBatch))
    (sized : ∀ batches ∈ commits, ∀ batch ∈ batches, sizedBatch batch) :
    Refines hash (runCommits hash commits).1 (RecordImage.empty.advance
      (runCommits hash commits).2) := by
  have run : ∀ state : RecordTables × List RecordBatch,
      Refines hash state.1 (RecordImage.empty.advance state.2) →
        Refines hash (commits.foldl (commitStep hash) state).1
          (RecordImage.empty.advance (commits.foldl (commitStep hash) state).2) := by
    induction commits with
    | nil => exact fun state refines => refines
    | cons batches rest ih =>
      intro state refines
      exact ih (fun other mem => sized other (by simp [mem])) _
        (commitStep_refines refines batches (sized batches (by simp)))
  exact run _ (empty_refines hash)

/-- Every way of reading the tables, and the chunk table itself, agrees with a map of whole values. -/
structure ReadsAs (hash : Bytes → Digest) (tables : RecordTables) (records : RecordMap) : Prop where
  get : ∀ key : Bytes, tables.get hash key = .ok records[key]?
  scanPrefix : ∀ {σ : Type} (stem : Bytes) (visit : σ → Bytes → Bytes → Result σ) (start : σ),
    tables.scanPrefix hash stem visit start =
      (recordsUnder records stem).foldlM (fun state entry => visit state entry.1 entry.2) start
  nextAfter : ∀ stem after, tables.nextAfter hash stem after =
    .ok (recordsAfter records stem after).head?
  iterate : ∀ stem fuel, (recordsUnder records stem).length < fuel →
    tables.iterateFrom hash stem fuel none = .ok (recordsUnder records stem)
  chunks : ∀ (key : Bytes) index, tables.chunks[(key, index)]? = records[key]?.bind fun value =>
    chunkOf value index

theorem represented_readsAs {hash : Bytes → Digest} {tables : RecordTables} {records : RecordMap}
    (represented : Represents hash tables records) : ReadsAs hash tables records where
  get := get_spec represented
  scanPrefix := scanPrefix_spec represented
  nextAfter := nextAfter_spec represented
  iterate := by
    intro stem fuel enough
    have whole : recordsAfter records stem none = recordsUnder records stem := by simp [recordsAfter]
    rw [← whole] at enough ⊢
    exact iterateFrom_spec represented stem fuel none enough
  chunks := represented.chunk

/-- After any sequence of commits the store holds the operations of the accepted ones, read back as an
ordered map, and it accepts next exactly the batches that continue its bookmark. -/
theorem recordStore_refines_map (hash : Bytes → Digest) (commits : List (List RecordBatch))
    (sized : ∀ batches ∈ commits, ∀ batch ∈ batches, sizedBatch batch) :
    let tables := (runCommits hash commits).1
    let image := RecordImage.empty.advance (runCommits hash commits).2
    ReadsAs hash tables image.records ∧ tables.durableBookmark = .ok image.bookmark ∧
      ∀ batches : List RecordBatch, (∀ batch ∈ batches, sizedBatch batch) →
        ((tables.commit hash batches).2 = .ok () ↔ continuesAll image.bookmark batches = true) ∧
        ∀ error, (tables.commit hash batches).2 = .error error →
          (tables.commit hash batches).1 = tables := by
  have refines := runCommits_refines hash commits sized
  refine ⟨represented_readsAs refines.represented, durableBookmark_spec refines, ?_⟩
  intro batches fits
  have committed := commit_spec refines batches fits
  split at committed
  next accepted =>
    rw [committed.1]
    exact ⟨by simp [accepted], by simp⟩
  next refused =>
    obtain ⟨error, failed⟩ := committed
    rw [failed]
    exact ⟨by simp [refused], by simp⟩

def firstBatch : RecordBatch :=
  { firstIndex := 1
    bookmark := { term := 1, index := 1 }
    operations := [.put [1] [2], .put [1, 1] [3], .deletePrefix [1, 1]] }

theorem recordStore_refines_map_firstBatch :
    (∀ batches ∈ [[firstBatch]], ∀ batch ∈ batches, sizedBatch batch) ∧
      (runCommits (fun _ => .zero) [[firstBatch]]).1.get (fun _ => .zero) [1] = .ok (some [2]) := by
  have sized : ∀ batches ∈ [[firstBatch]], ∀ batch ∈ batches, sizedBatch batch := by
    simp [firstBatch, sizedBatch, RecordOp.sized, u64Limit]
  refine ⟨sized, ?_⟩
  rw [(recordStore_refines_map (fun _ => .zero) [[firstBatch]] sized).1.get [1]]
  decide +kernel

end IronGraph
