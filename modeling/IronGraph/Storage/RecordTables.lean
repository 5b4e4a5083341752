import IronGraph.Storage.RecordStoreCore

/-!
The two tables of the record store represent one map of whole values: the header of a live value in
the one, exactly the chunks of its long values in the other.
-/

namespace IronGraph

open Std PrefixOrder FixedBytes Outcome RecordTables OrderedMap List ExtTreeMap

def chunkOf (value : Bytes) (index : Nat) : Option Bytes :=
  if index < chunkCount value.length then some (piece chunkBytes value index) else none

structure Represents (hash : Bytes → Digest) (tables : RecordTables) (records : RecordMap) : Prop where
  header : ∀ key : Bytes, tables.records[key]? = records[key]?.map (recordHeader hash)
  chunk : ∀ (key : Bytes) index, tables.chunks[(key, index)]? = records[key]?.bind fun value =>
    chunkOf value index
  sized : ∀ (key : Bytes) value, records[key]? = some value → value.length < u64Limit

section Header

variable (hash : Bytes → Digest) {length : Nat}

theorem chunkCount_lt (sized : length < u64Limit) : chunkCount length < u64Limit := by
  unfold chunkCount pieceCount chunkBytes u64Limit at *
  split <;> omega

theorem chunkCount_eq_zero : chunkCount length = 0 ↔ length ≤ chunkBytes := by
  unfold chunkCount pieceCount chunkBytes
  split <;> omega

theorem chunkStart_lt {index : Nat} (bound : index < chunkCount length) :
    index * chunkBytes < length := by
  unfold chunkCount pieceCount chunkBytes at bound
  unfold chunkBytes
  split at bound <;> omega

theorem inline_extent_lt (inline : chunkCount length = 0) : headerBytes + length < u64Limit := by
  have short := chunkCount_eq_zero.mp inline
  unfold chunkBytes at short
  unfold headerBytes u64Limit
  omega

theorem recordHeader_length (value : Bytes) : (recordHeader hash value).length =
      headerBytes + if chunkCount value.length = 0 then value.length else 0 := by
  have size := (hash value).size
  simp only [recordHeader, headerBytes, length_append, leBytes_length, size]
  split <;> simp

theorem decodeHeader_recordHeader (value : Bytes) (sized : value.length < u64Limit) :
    decodeHeader (recordHeader hash value) =
      .ok (value.length, chunkCount value.length, (hash value).bytes) := by
  have size := (hash value).size
  have lengthBytes := ofLeBytes_leBytes 8 value.length sized
  have countBytes := ofLeBytes_leBytes 8 (chunkCount value.length) (chunkCount_lt sized)
  have extent := recordHeader_length hash value
  have lengthField : (recordHeader hash value).take 8 = leBytes 8 value.length := by
    simp [recordHeader, append_assoc]
  have countField : ((recordHeader hash value).drop 8).take 8 =
      leBytes 8 (chunkCount value.length) := by
    simp [recordHeader, append_assoc]
  have checksumField : ((recordHeader hash value).drop 16).take 32 = (hash value).bytes := by
    rw [recordHeader, append_assoc, drop_left' (by simp), take_left' size]
  simp only [decodeHeader, lengthField, countField, checksumField, lengthBytes, countBytes, extent]
  by_cases inline : chunkCount value.length = 0
  · have room := inline_extent_lt inline
    simp [inline, room, require, bind, Except.bind, pure, Except.pure]
  · simp [inline, require, bind, Except.bind, pure, Except.pure]

end Header

section Operations

variable {hash : Bytes → Digest} {tables : RecordTables} {records : RecordMap}
  {key value stem : Bytes}

theorem removeChunks_spec (tables : RecordTables) (key : Bytes) (count : Nat)
    (has : ∀ index < count, tables.chunks.contains (key, index) = true) :
    ∃ next, (range count).foldlM (removeChunk key) tables = .ok next ∧
      next.records = tables.records ∧ next.bookmark = tables.bookmark ∧
      ∀ (other : Bytes) index, next.chunks[(other, index)]? =
        if other = key ∧ index < count then none else tables.chunks[(other, index)]? := by
  induction count with
  | zero => exact ⟨tables, rfl, rfl, rfl, by simp⟩
  | succ count ih =>
    obtain ⟨middle, ran, sameRecords, sameBookmark, remaining⟩ :=
      ih fun index bound => has index (by omega)
    have last : middle.chunks.contains (key, count) = true := by
      have found := has count (by omega)
      rw [contains_eq_isSome_getElem?] at found ⊢
      simpa [remaining] using found
    refine ⟨{ middle with chunks := middle.chunks.erase (key, count) }, ?_, sameRecords,
      sameBookmark, ?_⟩
    · rw [range_succ, foldlM_append, ran]
      simp [bind, Except.bind, removeChunk, last, require, pure, Except.pure]
    · intro other index
      simp only [ExtTreeMap.getElem?_erase, LawfulEqCmp.compare_eq_iff_eq, Prod.mk.injEq, remaining]
      grind

theorem deleteRecord_spec (represented : Represents hash tables records) (key : Bytes) :
    ∃ next, tables.deleteRecord key = .ok next ∧ Represents hash next (records.erase key) ∧
      next.records = tables.records.erase key ∧ next.bookmark = tables.bookmark := by
  cases found : records[key]? with
  | none =>
    have absent : tables.records[key]? = none := by simp [represented.header, found]
    refine ⟨tables, by simp [deleteRecord, absent], ?_, (erase_absent absent).symm, rfl⟩
    rw [erase_absent found]
    exact represented
  | some value =>
    have stored : tables.records[key]? = some (recordHeader hash value) := by
      simp [represented.header, found]
    have has : ∀ index < chunkCount value.length, tables.chunks.contains (key, index) = true := by
      intro index bound
      rw [contains_eq_isSome_getElem?, represented.chunk, found]
      simp [chunkOf, bound]
    obtain ⟨next, ran, sameRecords, sameBookmark, remaining⟩ :=
      removeChunks_spec { tables with records := tables.records.erase key } key
        (chunkCount value.length) has
    refine ⟨next, ?_, ⟨?_, ?_, ?_⟩, sameRecords, sameBookmark⟩
    · simp only [deleteRecord, stored,
        decodeHeader_recordHeader hash value (represented.sized key value found)]
      exact ran
    · intro other
      rw [sameRecords, ExtTreeMap.getElem?_erase, ExtTreeMap.getElem?_erase, represented.header]
      split <;> rfl
    · intro other index
      rw [remaining, ExtTreeMap.getElem?_erase]
      by_cases same : key = other
      · subst same
        simp only [true_and, represented.chunk, found, ReflCmp.compare_self, if_true, Option.bind_none,
          Option.bind_some, chunkOf]
        split <;> simp_all
      · simp [same, Ne.symm same, represented.chunk]
    · intro other kept
      rw [ExtTreeMap.getElem?_erase]
      split
      · simp
      · exact represented.sized other kept

theorem insertChunks_spec (cleared : RecordTables) (key value : Bytes) (count : Nat) :
    let chunked := (range count).foldl (insertChunk key value) cleared
    chunked.records = cleared.records ∧ chunked.bookmark = cleared.bookmark ∧
      ∀ (other : Bytes) index, chunked.chunks[(other, index)]? =
        if other = key ∧ index < count then some (piece chunkBytes value index)
        else cleared.chunks[(other, index)]? := by
  induction count with
  | zero => simp
  | succ count ih =>
    obtain ⟨sameRecords, sameBookmark, written⟩ := ih
    simp only [range_succ, foldl_append, foldl_cons, foldl_nil, insertChunk]
    refine ⟨sameRecords, sameBookmark, ?_⟩
    intro other index
    simp only [ExtTreeMap.getElem?_insert, LawfulEqCmp.compare_eq_iff_eq, Prod.mk.injEq, written]
    grind

variable (represented : Represents hash tables records)
include represented

theorem putRecord_spec (key value : Bytes) (fits : value.length < u64Limit) :
    ∃ next, tables.putRecord hash key value = .ok next ∧
      Represents hash next (records.insert key value) ∧ next.bookmark = tables.bookmark := by
  obtain ⟨cleared, deleted, absent, _, clearedBookmark⟩ := deleteRecord_spec represented key
  have written := insertChunks_spec cleared key value (chunkCount value.length)
  simp only at written
  generalize chunkedEq : (range (chunkCount value.length)).foldl (insertChunk key value)
    cleared = chunked
    at written
  obtain ⟨sameRecords, sameBookmark, chunks⟩ := written
  refine ⟨{ chunked with records := chunked.records.insert key (recordHeader hash value) }, ?_,
    ⟨?_, ?_, ?_⟩, ?_⟩
  · simp [putRecord, deleted, fits, chunkedEq, require, bind, Except.bind, pure, Except.pure]
  · intro other
    simp only [ExtTreeMap.getElem?_insert, sameRecords, absent.header, ExtTreeMap.getElem?_erase]
    split <;> rfl
  · intro other index
    simp only [chunks, absent.chunk, ExtTreeMap.getElem?_insert, ExtTreeMap.getElem?_erase]
    by_cases same : key = other
    · simp [same, chunkOf]
    · simp [same, Ne.symm same]
  · intro other kept found
    rcases insert_eq_some.mp found with ⟨_, rfl⟩ | ⟨_, found⟩
    · exact fits
    · apply absent.sized other
      rw [ExtTreeMap.getElem?_erase]
      simp_all
  · exact sameBookmark.trans clearedBookmark

theorem deleteRecords_spec (keys : List Bytes) : ∃ next, keys.foldlM deleteRecord tables = .ok next ∧
      Represents hash next (eraseKeys records keys) ∧
      next.records = eraseKeys tables.records keys ∧ next.bookmark = tables.bookmark := by
  induction keys generalizing tables records with
  | nil => exact ⟨tables, rfl, represented, rfl, rfl⟩
  | cons key rest ih =>
    obtain ⟨middle, deleted, kept, shrunk, sameBookmark⟩ := deleteRecord_spec represented key
    obtain ⟨next, ran, remaining, records, bookmark⟩ := ih kept
    refine ⟨next, ?_, remaining, ?_, bookmark.trans sameBookmark⟩
    · rw [foldlM_cons, bind_eq_ok]
      exact ⟨middle, deleted, ran⟩
    · rw [records, shrunk]
      rfl

theorem represents_mem (key : Bytes) : key ∈ tables.records ↔ key ∈ records := by
  rw [mem_iff_isSome_getElem?, mem_iff_isSome_getElem?, represented.header, Option.isSome_map]

/-- The batched scan of a prefix deletion ends with the prefix empty, since every round removes a
record. -/
theorem deletePrefixFrom_spec (stem : Bytes) (fuel : Nat) (enough : tables.records.size < fuel) :
    ∃ next, deletePrefixFrom stem fuel tables = .ok next ∧
      Represents hash next (RecordOp.apply records (.deletePrefix stem)) ∧
      next.bookmark = tables.bookmark := by
  induction fuel generalizing tables records with
  | zero => omega
  | succ fuel ih =>
    have under := keysUnder_eq_filter stem tables.records.ordered_keys
    generalize scanEq : (keysUnder stem tables.records.keys).take deleteBatch = keys
    have inside : ∀ key ∈ keys, key ∈ tables.records ∧ stem <+: key := by
      intro key mem
      rw [← scanEq] at mem
      have scanned := List.mem_of_mem_take mem
      rw [under, List.mem_filter, ExtTreeMap.mem_keys, startsWith_iff] at scanned
      exact scanned
    rw [deletePrefixFrom, scanEq]
    by_cases finished : keys = []
    · refine ⟨tables, by simp [finished], ?_, rfl⟩
      have outside : ∀ key ∈ records, ¬ stem <+: key := by
        intro key mem extended
        rw [finished, take_eq_nil_iff, under, filter_eq_nil_iff] at scanEq
        have scanned : key ∈ tables.records.keys := by
          rw [ExtTreeMap.mem_keys, represents_mem represented]
          exact mem
        exact (scanEq.resolve_left (by decide)) key scanned (startsWith_iff.mpr extended)
      have unaffected : RecordOp.apply records (.deletePrefix stem) = records := by
        rw [RecordOp.apply, filter_eq_self_iff]
        intro key mem
        simpa using outside key mem
      rw [unaffected]
      exact represented
    · obtain ⟨middle, deleted, kept, shrunk, sameBookmark⟩ := deleteRecords_spec represented keys
      have smaller : middle.records.size < fuel := by
        have fewer := size_eraseKeys_lt finished fun key mem => (inside key mem).1
        rw [← shrunk] at fewer
        omega
      obtain ⟨next, ran, cleared, bookmark⟩ := ih kept smaller
      have joined : RecordOp.apply (eraseKeys records keys) (.deletePrefix stem) =
          RecordOp.apply records (.deletePrefix stem) := by
        apply ExtTreeMap.ext_getElem?
        intro key
        rw [RecordOp.getElem?_apply, RecordOp.getElem?_apply, getElem?_eraseKeys]
        by_cases mem : key ∈ keys
        · simp [mem, Overlay.read, RecordOp.overlay, (inside key mem).2]
        · simp [mem]
      refine ⟨next, ?_, joined ▸ cleared, bookmark.trans sameBookmark⟩
      simp only [List.isEmpty_iff, finished, if_false]
      rw [bind_eq_ok]
      exact ⟨middle, deleted, ran⟩

def RecordOp.sized : RecordOp → Prop
  | .put _ value => value.length < u64Limit
  | .delete _ => True
  | .deletePrefix _ => True

theorem applyRecordOp_spec (op : RecordOp) (fits : op.sized) :
    ∃ next, tables.applyRecordOp hash op = .ok next ∧
      Represents hash next (op.apply records) ∧ next.bookmark = tables.bookmark := by
  cases op with
  | put key value => exact putRecord_spec represented key value fits
  | delete key =>
    obtain ⟨next, deleted, remaining, _, bookmark⟩ := deleteRecord_spec represented key
    exact ⟨next, deleted, remaining, bookmark⟩
  | deletePrefix stem => exact deletePrefixFrom_spec represented stem _ (Nat.lt_succ_self _)

theorem applyRecordOps_spec (ops : List RecordOp) (fits : ∀ op ∈ ops, op.sized) :
    ∃ next, ops.foldlM (applyRecordOp hash) tables = .ok next ∧
      Represents hash next (applyOperations records ops) ∧ next.bookmark = tables.bookmark := by
  induction ops generalizing tables records with
  | nil => exact ⟨tables, rfl, represented, rfl⟩
  | cons op rest ih =>
    obtain ⟨middle, applied, kept, sameBookmark⟩ :=
      applyRecordOp_spec represented op (fits op (by simp))
    obtain ⟨next, ran, final, bookmark⟩ := ih kept fun other mem => fits other (by simp [mem])
    refine ⟨next, ?_, final, bookmark.trans sameBookmark⟩
    rw [foldlM_cons, bind_eq_ok]
    exact ⟨middle, applied, ran⟩

omit represented

theorem readChunk_of_present {chunk : Bytes} {length index : Nat}
    (has : tables.chunks[(key, index)]? = some chunk)
    (expected : chunk.length = min (length - value.length) chunkBytes) :
    tables.readChunk key length value index = .ok (value ++ chunk) := by
  simp [readChunk, has, expected, orElse, require, bind, Except.bind, pure, Except.pure]

section

variable (represented : Represents hash tables records)

include represented

theorem readChunks_spec (found : records[key]? = some value) (count : Nat)
    (bound : count ≤ chunkCount value.length) :
    (range count).foldlM (tables.readChunk key value.length)
    [] = .ok (value.take (count * chunkBytes)) := by
  induction count with
  | zero => simp [pure, Except.pure]
  | succ count ih =>
    rw [range_succ, foldlM_append, ih (by omega)]
    have chunk : tables.chunks[(key, count)]? = some (piece chunkBytes value count) := by
      rw [represented.chunk, found, Option.bind_some, chunkOf, if_pos (by omega)]
    have inside : count * chunkBytes < value.length := chunkStart_lt bound
    have expected : (piece chunkBytes value count).length =
        min (value.length - (value.take (count * chunkBytes)).length) chunkBytes := by
      rw [piece_length, length_take, Nat.min_eq_left (Nat.le_of_lt inside)]
    have read := readChunk_of_present chunk expected
    rw [take_piece] at read
    simp [bind, Except.bind, read, pure, Except.pure]

theorem readRecord_spec (found : records[key]? = some value) :
    tables.readRecord hash key (recordHeader hash value) = .ok value := by
  have fits := represented.sized key value found
  have extent := recordHeader_length hash value
  simp only [readRecord, decodeHeader_recordHeader hash value fits]
  by_cases inline : chunkCount value.length = 0
  · have room := inline_extent_lt inline
    have body : (recordHeader hash value).drop headerBytes = value := by
      rw [recordHeader, if_pos inline, drop_left']
      simp [headerBytes, (hash value).size]
    simp [bind, Except.bind, inline, extent, room, body, require, pure, Except.pure]
  · have chunks := readChunks_spec represented found (chunkCount value.length) (Nat.le_refl _)
    have whole : value.take (chunkCount value.length * chunkBytes) = value := by
      apply take_of_length_le
      have long : ¬ value.length ≤ chunkBytes := fun short => inline (chunkCount_eq_zero.mpr short)
      rw [chunkCount, if_neg long]
      exact pieceCount_covers (by decide) value.length
    simp [bind, Except.bind, inline, extent, chunks, whole, require, pure, Except.pure]

theorem toList_represented :
    tables.records.toList = records.toList.map fun entry => (entry.1, recordHeader hash entry.2) := by
  have mapped : tables.records = records.map fun _ value => recordHeader hash value := by
    apply ExtTreeMap.ext_getElem?
    intro key
    rw [represented.header, ExtTreeMap.getElem?_map]
  rw [mapped, ExtTreeMap.toList_map]

theorem get_spec (key : Bytes) : tables.get hash key = .ok records[key]? := by
  unfold RecordTables.get
  rw [represented.header]
  cases found : records[key]? with
  | none => rfl
  | some value => simp [readRecord_spec represented found]

theorem foldlM_readRecord {σ : Type} (visit : σ → Bytes → Bytes → Result σ)
    (entries : List (Bytes × Bytes))
    (live : ∀ entry ∈ entries, records[entry.1]? = some entry.2) (start : σ) :
    (entries.map fun entry => (entry.1, recordHeader hash entry.2)).foldlM
        (fun state entry => tables.readRecord hash entry.1 entry.2 >>= visit state entry.1) start =
      entries.foldlM (fun state entry => visit state entry.1 entry.2) start := by
  induction entries generalizing start with
  | nil => rfl
  | cons entry rest ih =>
    have read := readRecord_spec represented (live entry (by simp))
    simp only [map_cons, foldlM_cons, read]
    congr 1
    funext state
    exact ih (fun other mem => live other (by simp [mem])) state

end

def recordsUnder (records : RecordMap) (stem : Bytes) : List (Bytes × Bytes) :=
  records.toList.filter fun entry => startsWith stem entry.1

theorem live_of_mem_toList (entries : List (Bytes × Bytes)) (sublist : entries.Sublist records.toList) :
    ∀ entry ∈ entries, records[entry.1]? = some entry.2 := by
  intro entry mem
  exact mem_toList_iff_getElem?_eq_some.mp (sublist.subset mem)

theorem toList_ordered (records : RecordMap) :
    records.toList.Pairwise fun left right => compare left.1 right.1 = .lt :=
  records.ordered_keys_toList

theorem scanPrefix_spec (represented : Represents hash tables records) {σ : Type} (stem : Bytes)
    (visit : σ → Bytes → Bytes → Result σ) (start : σ) : tables.scanPrefix hash stem visit start =
      (recordsUnder records stem).foldlM (fun state entry => visit state entry.1 entry.2) start := by
  have scanned := scan_eq_filter stem Prod.fst (toList_ordered records)
  simp only [scanPrefix, toList_represented represented, filter_map, takeWhile_map,
    Function.comp_def, scanned]
  exact foldlM_readRecord represented visit _ (live_of_mem_toList _ filter_sublist) start

theorem afterBound_above {after : Option Bytes} (reached : afterBound stem after key = true) :
    (compare stem key).isLE := by
  unfold afterBound at reached
  split at reached
  next last bounded =>
    rw [Option.filter_eq_some_iff] at bounded
    exact TransCmp.isLE_trans bounded.2 (by simp_all)
  · exact reached

theorem afterBound_under {stem key : List UInt8} (after : Option Bytes) (extended : stem <+: key) :
    afterBound stem after key = after.all fun last => compare last key == .lt := by
  have above := stem_le extended
  unfold afterBound
  cases after with
  | none => simp [above]
  | some last =>
    by_cases bounded : (compare stem last).isLE = true
    · simp [Option.filter_some, bounded]
    · have below : compare last key = .lt := by
        rw [Bool.not_eq_true, Ordering.isLE_eq_false] at bounded
        exact TransCmp.lt_of_lt_of_isLE (OrientedCmp.lt_of_gt bounded) above
      simp [Option.filter_some, bounded, above, below]

theorem nextAfter_spec (represented : Represents hash tables records) (stem : Bytes)
    (after : Option Bytes) : tables.nextAfter hash stem after =
      .ok ((recordsUnder records stem).filter fun entry =>
        after.all fun last => compare last entry.1 == .lt).head? := by
  have scanned : (records.toList.filter fun entry => afterBound stem after entry.1).takeWhile
      (fun entry => startsWith stem entry.1) =
      (recordsUnder records stem).filter fun entry => after.all fun last =>
        compare last entry.1 == .lt := by
    rw [takeWhile_eq_filter Prod.fst ((toList_ordered records).filter _)]
    · rw [recordsUnder, filter_filter, filter_filter]
      apply filter_congr
      intro entry _
      by_cases inside : stem <+: entry.1
      · simp [startsWith_iff.mpr inside, afterBound_under after inside]
      · simp [startsWith_eq_false.mpr inside]
    · intro entry mem
      exact afterBound_above (mem_filter.mp mem).2
  rw [← scanned, head?_takeWhile]
  simp only [nextAfter, toList_represented represented, filter_map, Function.comp_def, head?_map]
  generalize rangeEq : (records.toList.filter fun entry => afterBound stem after entry.1).head? = first
  cases first with
  | none => rfl
  | some entry =>
    have live : records[entry.1]? = some entry.2 :=
      live_of_mem_toList _ filter_sublist entry (mem_of_head? rangeEq)
    by_cases inside : startsWith stem entry.1 = true
    · simp [Option.filter_some, inside, readRecord_spec represented live]
    · simp [Option.filter_some, inside]

def recordsAfter (records : RecordMap) (stem : Bytes) (after : Option Bytes) : List (Bytes × Bytes) :=
  (recordsUnder records stem).filter fun entry => after.all fun last => compare last entry.1 == .lt

theorem recordsAfter_next {entry : Bytes × Bytes} {rest : List (Bytes × Bytes)}
    {after : Option Bytes} (split : recordsAfter records stem after = entry :: rest) :
    recordsAfter records stem (some entry.1) = rest := by
  have ordered : (recordsAfter records stem after).Pairwise fun left right =>
      compare left.1 right.1 = .lt :=
    ((toList_ordered records).filter _).filter _
  have reached : after.all (fun last => compare last entry.1 == .lt) = true := by
    have mem : entry ∈ recordsAfter records stem after := by simp [split]
    exact (mem_filter.mp mem).2
  have narrowed : recordsAfter records stem (some entry.1) =
      (recordsAfter records stem after).filter fun later => compare entry.1 later.1 == .lt := by
    simp only [recordsAfter, Option.all_some]
    rw [filter_filter]
    apply filter_congr
    intro later _
    cases after with
    | none => simp
    | some last =>
      simp only [Option.all_some, beq_iff_eq] at reached ⊢
      by_cases beyond : compare entry.1 later.1 = .lt
      · simp [beyond, TransCmp.lt_trans reached beyond]
      · simp [beyond]
  rw [split, pairwise_cons] at ordered
  rw [narrowed, split, filter_cons_of_neg (by simp [ReflCmp.compare_self]), filter_eq_self]
  intro later mem
  simp [ordered.1 later mem]

theorem iterateFrom_spec (represented : Represents hash tables records) (stem : Bytes) (fuel : Nat)
    (after : Option Bytes) (enough : (recordsAfter records stem after).length < fuel) :
    tables.iterateFrom hash stem fuel after = .ok (recordsAfter records stem after) := by
  induction fuel generalizing after with
  | zero => omega
  | succ fuel ih =>
    have next : tables.nextAfter hash stem after = .ok (recordsAfter records stem after).head? :=
      nextAfter_spec represented stem after
    rw [iterateFrom, next]
    cases remaining : recordsAfter records stem after with
    | nil => rfl
    | cons entry rest =>
      have later := recordsAfter_next remaining
      have shorter : (recordsAfter records stem (some entry.1)).length < fuel := by
        rw [later]
        rw [remaining, length_cons] at enough
        omega
      simp [bind, Except.bind, ih _ shorter, later, pure, Except.pure]

end Operations

end IronGraph
