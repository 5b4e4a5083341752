import IronGraph.Temporal.PersistenceCore
import IronGraph.Temporal.Store

/-!
The records of the temporal store follow it: after every published command the record map holds
exactly one record for each declaration, sample, row cursor and rollup definition.
-/

namespace IronGraph.Temporal

open Std Outcome OrderedMap Persistence PrefixOrder List

variable {codecs : TemporalCodecs} {ops : List RecordOp}

inductive TemporalRecord where
  | declaration (column : Key)
  | sample (column : Key) (row : Nat)
  | cursor (column : Key)
  | rollup (name : String)

namespace TemporalRecord

def bytes : TemporalRecord → Bytes
  | .declaration column => columnRecord 48 column
  | .sample column row => sampleRecord column row
  | .cursor column => columnRecord 50 column
  | .rollup name => rollupRecord name

def digit : TemporalRecord → UInt8
  | .declaration _ => 48
  | .sample .. => 49
  | .cursor _ => 50
  | .rollup _ => 51

def columnIds (column : Key) : List UInt64 := [column.1.toUInt64, column.2.1, column.2.2]

def body : TemporalRecord → Bytes
  | .declaration column => (columnIds column).flatMap idBytes
  | .sample column row => (columnIds column ++ [UInt64.ofNat row]).flatMap idBytes
  | .cursor column => (columnIds column).flatMap idBytes
  | .rollup name => nameBytes name

def Valid : TemporalRecord → Prop
  | .sample _ row => row < u64Limit
  | _ => True

theorem bytes_eq (record : TemporalRecord) :
    record.bytes = 116 :: 47 :: record.digit :: record.body := by
  cases record with
  | declaration column => rfl
  | sample column row => simp [bytes, sampleRecord, columnRecord, key, stem, digit, body, columnIds]
  | cursor column => rfl
  | rollup name => rfl

theorem columnIds_injective : Function.Injective columnIds := by
  rintro ⟨kind, target, property⟩ ⟨kind', target', property'⟩ same
  simp only [columnIds, cons.injEq, and_true, UInt8.toUInt64_inj] at same
  simp [same]

theorem nameBytes_injective : Function.Injective nameBytes := by
  intro first second same
  exact String.toByteArray_inj.mp (ByteArray.ext (Array.toList_inj.mp same))

theorem flatMap_idBytes_injective : Function.Injective fun identifiers : List UInt64 =>
    identifiers.flatMap idBytes :=
  key_injective []

theorem bytes_injective {first second : TemporalRecord} (valid : first.Valid) (alsoValid : second.Valid)
    (same : first.bytes = second.bytes) : first = second := by
  rw [bytes_eq, bytes_eq] at same
  simp only [cons.injEq, true_and] at same
  obtain ⟨digits, bodies⟩ := same
  cases first with
  | declaration column =>
    cases second with
    | declaration column' => rw [columnIds_injective (flatMap_idBytes_injective bodies)]
    | sample _ _ => cases digits
    | cursor _ => cases digits
    | rollup _ => cases digits
  | sample column row =>
    cases second with
    | sample column' row' =>
      have listed := flatMap_idBytes_injective bodies
      obtain ⟨columns, rows⟩ := append_inj' listed rfl
      have numbers := congrArg UInt64.toNat (singleton_inj.mp rows)
      simp only [Valid, u64Limit] at valid alsoValid
      rw [UInt64.toNat_ofNat_of_lt' valid, UInt64.toNat_ofNat_of_lt' alsoValid] at numbers
      rw [columnIds_injective columns, numbers]
    | declaration _ => cases digits
    | cursor _ => cases digits
    | rollup _ => cases digits
  | cursor column =>
    cases second with
    | cursor column' => rw [columnIds_injective (flatMap_idBytes_injective bodies)]
    | declaration _ => cases digits
    | sample _ _ => cases digits
    | rollup _ => cases digits
  | rollup name =>
    cases second with
    | rollup name' => rw [nameBytes_injective bodies]
    | declaration _ => cases digits
    | sample _ _ => cases digits
    | cursor _ => cases digits

variable {K A : Type} [Quantity K]

def value (codecs : TemporalCodecs) (store : TemporalStore K A) : TemporalRecord → Option Bytes
  | .declaration column =>
    store.columns[column]?.map fun found => codecs.declaration.encode found.declaration
  | .sample column row =>
    store.columns[column]?.bind fun found => found.rows[row]?.map codecs.sample.encode
  | .cursor column => store.columns[column]?.map fun found => codecs.cursor.encode found.nextRow
  | .rollup name => store.rollups[name]?.map fun rollup => codecs.definition.encode rollup.definition

def IsRollup : TemporalRecord → Prop
  | .rollup _ => True
  | _ => False

end TemporalRecord

variable {K A : Type} [Quantity K] {store : TemporalStore K A}

open TemporalRecord TemporalStore

/-- The record map is the image of the store. -/
structure Persisted (codecs : TemporalCodecs) (store : TemporalStore K A)
    (records : RecordMap) : Prop where
  values : ∀ record : TemporalRecord, record.Valid → records[record.bytes]? = record.value codecs store
  only : ∀ (key : Bytes) value, records[key]? = some value →
    ∃ record : TemporalRecord, record.Valid ∧ record.bytes = key

inductive Truth (codecs : TemporalCodecs) (store : TemporalStore K A) : RecordOp → TemporalRecord → Prop
  | put {record : TemporalRecord} {value : Bytes} (holds : record.value codecs store = some value) :
      Truth codecs store (.put record.bytes value) record
  | delete {record : TemporalRecord} (absent : record.value codecs store = none) :
      Truth codecs store (.delete record.bytes) record

section Operations

variable {record : TemporalRecord} {first second : List RecordOp} {recs : RecordMap}

theorem Truth.overlay {op : RecordOp} (truth : Truth codecs store op record) (key : Bytes) :
    op.overlay key = if record.bytes = key then some (record.value codecs store) else none := by
  cases truth with
  | put holds => rw [RecordOp.overlay, holds]
  | delete absent => rw [RecordOp.overlay, absent]

def Truths (codecs : TemporalCodecs) (store : TemporalStore K A) (operations : List RecordOp) : Prop :=
  ∀ operation ∈ operations, ∃ record : TemporalRecord, record.Valid ∧
    Truth codecs store operation record

def Mentions (codecs : TemporalCodecs) (store : TemporalStore K A) (operations : List RecordOp)
    (record : TemporalRecord) : Prop :=
  ∃ operation ∈ operations, Truth codecs store operation record

theorem Truths.append (truths : Truths codecs store first) (more : Truths codecs store second) :
    Truths codecs store (first ++ second) := by
  intro op mem
  rcases mem_append.mp mem with inside | inside
  · exact truths op inside
  · exact more op inside

theorem applyOperations_settle (valid : record.Valid)
    (truths : ∀ op ∈ ops, op.overlay record.bytes = none ∨
      ∃ other : TemporalRecord, other.Valid ∧ Truth codecs store op other)
    (covered : recs[record.bytes]? = record.value codecs store ∨ Mentions codecs store ops record) :
    (applyOperations recs ops)[record.bytes]? = record.value codecs store := by
  apply applyOperations_settled
  · intro op mem said spoken
    rcases truths op mem with silent | ⟨other, alsoValid, truth⟩
    · cases silent.symm.trans spoken
    · rw [truth.overlay] at spoken
      split at spoken
      next same =>
        obtain rfl := bytes_injective alsoValid valid same
        exact (Option.some.inj spoken).symm
      · cases spoken
  · refine covered.imp_right ?_
    rintro ⟨op, mem, truth⟩
    refine ⟨op, mem, ?_⟩
    rw [truth.overlay, if_pos rfl]
    rfl

theorem columnChanges_truths {column : Key} {found : Column} {expired : List Nat} {start : Nat}
    (has : store.columns[column]? = some found) (indexed : found.Indexed)
    (bounded : ∀ row ∈ expired, row < u64Limit)
    (changed : store.columnChanges codecs column start expired = .ok ops) :
    Truths codecs store ops ∧ Mentions codecs store ops (.declaration column) ∧
      Mentions codecs store ops (.cursor column) ∧
      (∀ row ∈ expired, found.rows[row]? = none → Mentions codecs store ops (.sample column row)) ∧
      ∀ (row : Nat) sample, start ≤ row → found.rows[row]? = some sample →
        Mentions codecs store ops (.sample column row) := by
  have cursor := indexed.cursor
  simp only [columnChanges, has] at changed
  split at changed
  · cases changed
  next forward =>
    obtain rfl := Except.ok.inj changed
    have declaredValue : (declaration column).value codecs store =
        some (codecs.declaration.encode found.declaration) := by simp [value, has]
    have cursorValue : (TemporalRecord.cursor column).value codecs store =
        some (codecs.cursor.encode found.nextRow) := by simp [value, has]
    have sampleValue : ∀ row, (TemporalRecord.sample column row).value codecs store =
        found.rows[row]?.map codecs.sample.encode := by simp [value, has]
    have declared := Truth.put declaredValue
    have numbered := Truth.put cursorValue
    have gone : ∀ row : Nat, found.rows[row]? = none →
        Truth codecs store (.delete (sampleRecord column row)) (.sample column row) :=
      fun row absent => Truth.delete (by rw [sampleValue, absent]; rfl)
    have kept : ∀ (row : Nat) sample, found.rows[row]? = some sample →
        Truth codecs store (.put (sampleRecord column row) (codecs.sample.encode sample))
          (.sample column row) :=
      fun row sample stored => Truth.put (by rw [sampleValue, stored]; rfl)
    refine ⟨?_, ⟨_, mem_append_left _ (mem_append_left _ mem_cons_self), declared⟩,
      ⟨_, mem_append_right _ mem_cons_self, numbered⟩, ?_, ?_⟩
    · intro op mem
      simp only [mem_append, mem_cons, mem_map, mem_filter, mem_filterMap, not_mem_nil,
        or_false, Option.map_eq_some_iff, Option.isNone_iff_eq_none] at mem
      rcases mem with ((rfl | ⟨row, ⟨listed, absent⟩, rfl⟩) | ⟨row, -, sample, stored, rfl⟩) | rfl
      · exact ⟨.declaration column, trivial, declared⟩
      · exact ⟨.sample column row, bounded row listed, gone row absent⟩
      · have below := indexed.below row sample stored
        exact ⟨.sample column row, Nat.lt_trans below cursor, kept row sample stored⟩
      · exact ⟨.cursor column, trivial, numbered⟩
    · intro row listed absent
      refine ⟨_, ?_, gone row absent⟩
      simp only [mem_append, mem_cons, mem_map, mem_filter, Option.isNone_iff_eq_none]
      exact .inl (.inl (.inr ⟨row, ⟨listed, absent⟩, rfl⟩))
    · intro row sample recent stored
      have below := indexed.below row sample stored
      refine ⟨_, ?_, kept row sample stored⟩
      simp only [mem_append, mem_filterMap, mem_range'_1]
      exact .inl (.inr ⟨row, by omega, by rw [stored]; rfl⟩)

def Selects (selection : TemporalPersistenceSelection) (store : TemporalStore K A) : Prop :=
  ∀ (column : Key) entry, selection.columns[column]? = some entry →
    (store.columns[column]?).isSome ∧ ∀ row ∈ entry.2, row < u64Limit

structure Covers (codecs : TemporalCodecs) (store : TemporalStore K A)
    (selection : TemporalPersistenceSelection) (operations : List RecordOp) : Prop where
  truths : Truths codecs store operations
  columns : ∀ (column : Key) entry, selection.columns[column]? = some entry →
    Mentions codecs store operations (.declaration column) ∧
      Mentions codecs store operations (.cursor column)
  expired : ∀ (column : Key) entry, selection.columns[column]? = some entry → ∀ row ∈ entry.2,
    (sample column row).value codecs store = none →
      Mentions codecs store operations (.sample column row)
  appended : ∀ (column : Key) entry, selection.columns[column]? = some entry → ∀ row, entry.1 ≤ row →
    (sample column row).value codecs store ≠ none →
      Mentions codecs store operations (.sample column row)

theorem Mentions.mono (mentioned : Mentions codecs store first record) (contained : first ⊆ second) :
    Mentions codecs store second record := by
  obtain ⟨op, mem, truth⟩ := mentioned
  exact ⟨op, contained mem, truth⟩

def Sweeps (codecs : TemporalCodecs) (store : TemporalStore K A) (operations : List RecordOp) : Prop :=
  ∀ operation ∈ operations, operation = .deletePrefix (stem 51) ∨
    ∃ record : TemporalRecord, record.Valid ∧ Truth codecs store operation record

theorem startsWith_stem (record : TemporalRecord) : startsWith (stem 51) record.bytes = true ↔
    record.IsRollup := by
  rw [startsWith_iff, bytes_eq]
  cases record <;> simp [stem, digit, IsRollup]

theorem Sweeps.settle (sweeps : Sweeps codecs store ops) (valid : record.Valid)
    (other : ¬ record.IsRollup)
    (covered : recs[record.bytes]? = record.value codecs store ∨ Mentions codecs store ops record) :
    (applyOperations recs ops)[record.bytes]? = record.value codecs store := by
  refine applyOperations_settle valid ?_ covered
  intro op mem
  refine (sweeps op mem).imp_left ?_
  rintro rfl
  rw [RecordOp.overlay, if_neg]
  rwa [startsWith_stem]

theorem Sweeps.only (sweeps : Sweeps codecs store ops)
    (only : ∀ (key : Bytes) value, recs[key]? = some value →
      ∃ record : TemporalRecord, record.Valid ∧ record.bytes = key) (key : Bytes) (value : Bytes)
    (found : (applyOperations recs ops)[key]? = some value) :
    ∃ record : TemporalRecord, record.Valid ∧ record.bytes = key := by
  by_contra unknown
  have absent : (applyOperations recs ops)[key]? = none := by
    apply applyOperations_settled
    · intro op mem said spoken
      rcases sweeps op mem with rfl | ⟨another, alsoValid, truth⟩
      · rw [RecordOp.overlay] at spoken
        split at spoken
        · exact (Option.some.inj spoken).symm
        · cases spoken
      · rw [truth.overlay] at spoken
        split at spoken
        next same => exact absurd ⟨another, alsoValid, same⟩ unknown
        · cases spoken
    · left
      cases stored : recs[key]? with
      | none => rfl
      | some old => exact absurd (only key old stored) unknown
  rw [absent] at found
  cases found

end Operations

section Changes

variable [AddCommGroup A] {cal : Calendar} {arith : Arithmetic K A}

theorem persistenceChanges_covers {selection : TemporalPersistenceSelection} {catalogChanged : Bool}
    (consistent : store.Consistent cal arith) (selects : Selects selection store)
    (changed : store.persistenceChanges codecs selection catalogChanged = .ok ops) :
    ∃ columns, ops = (if catalogChanged then store.catalogChanges codecs else []) ++ columns ∧
      Covers codecs store selection columns := by
  obtain ⟨parts, mapped, same⟩ := bind_eq_ok.mp changed
  refine ⟨parts.flatten, (Except.ok.inj same).symm, ?_⟩
  obtain ⟨forward, backward⟩ := mapM_eq_ok_mem mapped
  -- one entry of the selection, with its column and its part of the operations
  have entry : ∀ (column : Key) entry, selection.columns[column]? = some entry →
      ∃ found part, store.columns[column]? = some found ∧ found.Indexed ∧ part ⊆ parts.flatten ∧
        (∀ row ∈ entry.2, row < u64Limit) ∧ store.columnChanges codecs column entry.1 entry.2 =
          .ok part := by
    intro column entry selected
    obtain ⟨declared, bounded⟩ := selects column entry selected
    obtain ⟨found, has⟩ := Option.isSome_iff_exists.mp declared
    obtain ⟨part, mem, computed⟩ := forward (column, entry) (mem_toList.mpr selected)
    exact ⟨found, part, has, (consistent.columns column found has).sound.toIndexed,
      fun op inside => mem_flatten.mpr ⟨part, mem, inside⟩, bounded, computed⟩
  constructor
  · intro op mem
    obtain ⟨part, has, inside⟩ := mem_flatten.mp mem
    obtain ⟨⟨column, chosen⟩, listed, computed⟩ := backward part has
    obtain ⟨found, part', located, indexed, -, bounded, again⟩ :=
      entry column chosen (mem_toList.mp listed)
    obtain rfl := Except.ok.inj (computed.symm.trans again)
    exact (columnChanges_truths located indexed bounded computed).1 op inside
  · intro column chosen selected
    obtain ⟨found, part, located, indexed, contained, bounded, computed⟩ := entry column chosen selected
    obtain ⟨-, declared, numbered, -, -⟩ := columnChanges_truths located indexed bounded computed
    exact ⟨declared.mono contained, numbered.mono contained⟩
  · intro column chosen selected row mem absent
    obtain ⟨found, part, located, indexed, contained, bounded, computed⟩ := entry column chosen selected
    obtain ⟨-, -, -, gone, -⟩ := columnChanges_truths located indexed bounded computed
    refine (gone row mem ?_).mono contained
    simpa [value, located] using absent
  · intro column chosen selected row recent has
    obtain ⟨found, part, located, indexed, contained, bounded, computed⟩ := entry column chosen selected
    obtain ⟨-, -, -, -, kept⟩ := columnChanges_truths located indexed bounded computed
    cases stored : found.rows[row]? with
    | none => simp [value, located, stored] at has
    | some sample => exact (kept row sample recent stored).mono contained

theorem catalog_rollups (codecs : TemporalCodecs) (consistent : store.Consistent cal arith) :
    Truths codecs store (store.rollups.toList.map fun entry =>
      .put (rollupRecord entry.2.definition.name) (codecs.definition.encode entry.2.definition)) ∧
    ∀ name : String, (store.rollups[name]?).isSome →
    Mentions codecs store (store.rollups.toList.map fun entry =>
      .put (rollupRecord entry.2.definition.name) (codecs.definition.encode entry.2.definition))
        (.rollup name) := by
  have truth : ∀ (name : String) rollup, store.rollups[name]? = some rollup →
      Truth codecs store (.put (rollupRecord rollup.definition.name)
        (codecs.definition.encode rollup.definition)) (.rollup name) := by
    intro name rollup stored
    have named := (consistent.rollups name rollup stored).1.named
    have holds : (TemporalRecord.rollup name).value codecs store =
        some (codecs.definition.encode rollup.definition) := by
      simp [value, stored]
    rw [named]
    exact Truth.put holds
  constructor
  · intro op mem
    obtain ⟨⟨name, rollup⟩, listed, rfl⟩ := mem_map.mp mem
    exact ⟨.rollup name, trivial, truth name rollup (mem_toList.mp listed)⟩
  · intro name stored
    obtain ⟨rollup, found⟩ := Option.isSome_iff_exists.mp stored
    exact ⟨_, mem_map.mpr ⟨(name, rollup), mem_toList.mpr found, rfl⟩, truth name rollup found⟩

theorem catalogChanges_sweeps (consistent : store.Consistent cal arith) :
    Sweeps codecs store (store.catalogChanges codecs) := by
  intro op mem
  rcases mem_append.mp mem with declared | rest
  · right
    obtain ⟨⟨column, found⟩, listed, rfl⟩ := mem_map.mp declared
    have holds : (declaration column).value codecs store =
        some (codecs.declaration.encode found.declaration) := by simp [value, mem_toList.mp listed]
    exact ⟨.declaration column, trivial, Truth.put holds⟩
  · rcases mem_cons.mp rest with clear | rolled
    · exact .inl clear
    · exact .inr ((catalog_rollups codecs consistent).1 op rolled)

theorem catalog_settles_rollup (consistent : store.Consistent cal arith) {columns : List RecordOp}
    (truths : Truths codecs store columns) (recs : RecordMap) (name : String) :
    (applyOperations recs (store.catalogChanges codecs ++ columns))[(rollup name).bytes]? =
      (rollup name).value codecs store := by
  obtain ⟨rollupTruths, mentioned⟩ := catalog_rollups codecs consistent
  rw [catalogChanges, append_assoc, applyOperations_append, cons_append]
  generalize applyOperations recs _ = declared
  change (applyOperations (RecordOp.apply declared (.deletePrefix (stem 51))) _)[_]? = _
  refine applyOperations_settle (show (rollup name).Valid from trivial)
    (fun op mem => .inr (rollupTruths.append truths op mem)) ?_
  cases stored : store.rollups[name]? with
  | some rollup => exact .inr ((mentioned name (by rw [stored]; rfl)).mono (subset_append_left _ _))
  | none =>
    left
    have inside : startsWith (stem 51) (rollup name).bytes = true := (startsWith_stem _).mpr trivial
    rw [RecordOp.getElem?_apply, Overlay.read, RecordOp.overlay, if_pos inside]
    simp [value, stored]

end Changes

end IronGraph.Temporal
